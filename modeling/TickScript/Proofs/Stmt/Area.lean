import TickScript.Proofs.Expr.Area
import TickScript.Proofs.Faithful

/-!
# The places that the parser deals with

The parser is confined to the area of its input: what it reports lies where a token of the input
does, and so does every token of the declarations that it answers. Only the end of input has to be
made up. It takes the place of the last token, so it lies in the area as long as there is one, and
of no tokens nothing is read.

Readers cut the input into parts before they read, and the parts are sublists of it, so they lie in
the area as well. The one token that is in no file is the end of input; it is given the place of the
last token of the list at hand, and lists without tokens are excluded wherever it could be needed.
-/

namespace TickScript

open Stage

namespace Parsing

variable {A : Area}

/-! ## Cutting token lists -/

theorem liesIn_segment {opening? : Option TokenKind} {closing : TokenKind} {depth : Nat}
    {tokens : List Token} (h : LiesIn A tokens) :
    LiesIn A (segment opening? closing depth tokens) := by
  induction tokens generalizing depth with
  | nil => exact ⟨liesIn_nil, liesIn_nil, trivial⟩
  | cons t rest ih =>
      obtain ⟨ht, hrest⟩ := liesIn_cons.1 h
      unfold segment
      split
      · exact ⟨liesIn_nil, hrest, trivial⟩
      · obtain ⟨hinner, hbehind⟩ := ih hrest
        exact ⟨liesIn_cons.2 ⟨ht, hinner⟩, hbehind⟩

theorem liesIn_braced {tokens : List Token} (h : LiesIn A tokens) : LiesIn A (braced tokens) :=
  liesIn_segment h

theorem liesIn_parenthesised {tokens : List Token} (h : LiesIn A tokens) :
    LiesIn A (parenthesised tokens) := liesIn_segment h

theorem liesIn_recover {tokens : List Token} (h : LiesIn A tokens) : LiesIn A (recover tokens) := by
  induction tokens with
  | nil => exact h
  | cons t rest ih =>
      obtain ⟨-, hrest⟩ := liesIn_cons.1 h
      unfold recover
      split
      · exact hrest
      · split
        · exact (liesIn_braced hrest).2.1
        · exact ih hrest

/-- A token that is no separator is put in front of the first part behind it. -/
theorem liesIn_onto {t : Token} {parts : List (List Token)} (ht : LiesIn A t)
    (hparts : LiesIn A parts) : LiesIn A (match parts with
      | [] => [[t]]
      | part :: parts => (t :: part) :: parts) := by
  cases parts with
  | nil => simpa using ht
  | cons part parts =>
      obtain ⟨hpart, hparts⟩ := liesIn_cons.1 hparts
      exact liesIn_cons.2 ⟨liesIn_cons.2 ⟨ht, hpart⟩, hparts⟩

theorem liesIn_splitTop (separator : TokenKind) (depth : Int) {tokens : List Token}
    (h : LiesIn A tokens) : LiesIn A (splitTop separator depth tokens) := by
  induction tokens generalizing depth with
  | nil => simp [splitTop]
  | cons t rest ih =>
      obtain ⟨ht, hrest⟩ := liesIn_cons.1 h
      unfold splitTop
      simp only
      split
      case h_7 =>
        split
        · exact liesIn_cons.2 ⟨liesIn_nil, ih _ hrest⟩
        · exact liesIn_onto ht (ih _ hrest)
      all_goals exact liesIn_onto ht (ih _ hrest)

theorem liesIn_unclosedQuote {tokens : List Token} (h : LiesIn A tokens) :
    LiesIn A (unclosedQuote? tokens) := by
  fun_induction unclosedQuote? tokens with
  | case1 => exact liesIn_none
  | case2 _ _ _ ih => exact ih (liesIn_cons.1 h).2
  | case4 _ _ _ _ _ _ _ _ ih =>
      simp only [liesIn_cons] at h
      exact ih h.2.2.2
  | case7 _ _ _ _ _ _ _ ih =>
      simp only [liesIn_cons] at h
      exact ih h.2.2
  | case3 | case5 | case6 | case8 => exact liesIn_some.2 (liesIn_cons.1 h).1

theorem liesIn_accept (kind : TokenKind) {tokens : List Token} (h : LiesIn A tokens) :
    LiesIn A (accept kind tokens) := by
  cases tokens with
  | nil => exact liesIn_none
  | cons t rest =>
      simp only [accept]
      split
      · exact liesIn_some.2 (liesIn_pair.2 (liesIn_cons.1 h))
      · exact liesIn_none

theorem liesIn_current {ctx : ParseContext} {tokens : List Token} (hctx : LiesIn A ctx.final)
    (h : LiesIn A tokens) : LiesIn A (current ctx tokens) := by
  cases tokens with
  | nil => exact hctx
  | cons t rest => exact (liesIn_cons.1 h).1

/-- The end of some tokens is where the last of them is. -/
theorem liesIn_ofTokens {function : Text} {tokens : List Token} (h : LiesIn A tokens)
    (hne : tokens ≠ []) : LiesIn A (ParseContext.ofTokens function tokens).final := by
  have hlast := List.getLast?_eq_some_getLast hne
  simp only [ParseContext.ofTokens, hlast]
  exact liesIn_endAfter.2 (h _ (List.getLast_mem hne))

/-! ## Reporting -/

theorem confined_unterminated {content : List Token} {t : Token} (hcontent : LiesIn A content)
    (ht : LiesIn A t) (cause : Cause) : Confined A (unterminated content t cause) := by
  have hquote := liesIn_unclosedQuote hcontent
  unfold unterminated
  apply PointsInto.confined fun _ => trivial
  split
  · next quote hfound =>
      -- the string that swallowed the closing token is one of the content
      have hlies : LiesIn A quote := hquote quote hfound
      refine pointsInto_bind pointsInto_get fun s => ?_
      split
      · exact pointsInto_bind (pointsInto_modify _) fun _ => pointsInto_report hlies
      · exact pointsInto_pure _
  · exact pointsInto_report ht

section

variable {ctx : ParseContext} (hctx : LiesIn A ctx.final) {tokens : List Token}
  (htokens : LiesIn A tokens)

include hctx htokens

theorem confined_expect (kind : TokenKind) : Confined A (expect ctx kind tokens) := by
  have haccept := liesIn_accept kind htokens
  unfold expect
  split
  · next found hfound =>
      rw [hfound] at haccept
      exact confined_pure haccept
  · exact confined_bind (confined_report (liesIn_current hctx htokens)) fun _ _ =>
      confined_pure liesIn_none

theorem confined_expression : Confined A (expression ctx tokens) := by
  have hparse := Expr.liesIn_parse htokens
  unfold expression
  split
  · next e hfound =>
      rw [hfound] at hparse
      exact confined_pure (liesIn_some.2 hparse)
  · next d hfound =>
      rw [hfound] at hparse
      exact confined_bind (confined_report hparse) fun _ _ => confined_pure liesIn_none
  · exact confined_bind (confined_report hctx) fun _ _ => confined_pure liesIn_none

end

theorem confined_freshName (ctx : ParseContext) (kind : String) :
    Confined A (freshName ctx kind) := by
  apply PointsInto.confined fun _ _ _ => trivial
  exact pointsInto_bind (pointsInto_modify _) fun _ => pointsInto_get.map

theorem confined_statementTokens {start : Token} {tokens : List Token} (hstart : LiesIn A start)
    (htokens : LiesIn A tokens) : Confined A (statementTokens start tokens) := by
  unfold statementTokens
  have hcut : LiesIn A (segment none .semicolon 0 tokens) := liesIn_segment htokens
  generalize segment none .semicolon 0 tokens = cut at hcut ⊢
  obtain ⟨content, rest, closed⟩ := cut
  obtain ⟨hcontent, hrest, -⟩ := hcut
  dsimp only at hcontent hrest ⊢
  split
  · exact confined_pure ⟨liesIn_some.2 hcontent, hrest⟩
  · refine confined_bind (confined_unterminated hcontent hstart _) fun _ _ => ?_
    exact confined_pure ⟨liesIn_none, hrest⟩

/-! ## Declarations -/

/-- Nothing is read behind a report. -/
theorem confined_refuse {α : Type} [Located α] {t : Token} (ht : LiesIn A t) (cause : Cause) {a : α}
    (ha : LiesIn A a) : Confined A (liftM (report t cause) >>= fun _ => pure a : Parsing α) :=
  confined_bind (confined_report ht) fun _ _ => confined_pure ha

section

variable {ctx : ParseContext} (hctx : LiesIn A ctx.final) {type word start : Token}
  {tokens content : List Token}

include hctx

theorem confined_declParts (htype : LiesIn A type) (hcontent : LiesIn A content) :
    Confined A (declParts ctx type content) := by
  have hnothing : LiesIn A (none : Option (Token × Option Expr)) := liesIn_none
  unfold declParts
  split
  · exact confined_refuse htype _ hnothing
  · split
    · exact confined_refuse htype _ hnothing
    · next name rest =>
        obtain ⟨hname, hrest⟩ := liesIn_cons.1 hcontent
        split
        · exact confined_refuse htype _ hnothing
        · split
          · exact confined_pure (liesIn_some.2 ⟨hname, liesIn_none⟩)
          · next sign init =>
              obtain ⟨hsign, hinit⟩ := liesIn_cons.1 hrest
              split
              · exact confined_refuse hsign _ hnothing
              · split
                · exact confined_refuse hsign _ hnothing
                · refine confined_bind (confined_expression hctx hinit) fun e? he => ?_
                  split
                  · exact confined_pure (liesIn_some.2 ⟨hname, he⟩)
                  · exact confined_pure hnothing

theorem confined_declTail (htype : LiesIn A type) (htokens : LiesIn A tokens) :
    Confined A (declTail ctx type tokens) := by
  unfold declTail
  refine confined_bind (confined_statementTokens htype htokens) ?_
  rintro ⟨content?, rest⟩ ⟨hcontent, hrest⟩
  dsimp only at hcontent hrest ⊢
  split
  · exact confined_pure ⟨liesIn_none, hrest⟩
  · have hcontent := liesIn_some.1 hcontent
    refine confined_bind (confined_declParts hctx htype hcontent) fun parts? hparts => ?_
    exact confined_pure ⟨hparts, hrest⟩

theorem confined_variable (htype : LiesIn A type) (htokens : LiesIn A tokens) :
    Confined A (variable_ ctx type tokens) := by
  unfold variable_
  refine confined_bind (confined_declTail hctx htype htokens) ?_
  rintro ⟨parts?, rest⟩ ⟨hparts, hrest⟩
  exact confined_pure (liesIn_pair.2 ⟨liesIn_map hparts fun _ h => ⟨htype, h.2⟩, hrest⟩)

/-! ## Statements -/

theorem confined_return (hword : LiesIn A word) (htokens : LiesIn A tokens) :
    Confined A (return_ ctx word tokens) := by
  unfold return_
  refine confined_bind (confined_statementTokens hword htokens) ?_
  rintro ⟨content?, rest⟩ ⟨hcontent, hrest⟩
  dsimp only at hcontent hrest ⊢
  split
  · exact confined_pure ⟨liesIn_none, hrest⟩
  · refine confined_bind (confined_freshName ctx "return") fun name _ => ?_
    split
    · exact confined_pure ⟨liesIn_some.2 ⟨hword, liesIn_none⟩, hrest⟩
    · refine confined_bind (confined_expression hctx (liesIn_some.1 hcontent)) fun e? he => ?_
      split
      · exact confined_pure ⟨liesIn_some.2 ⟨hword, he⟩, hrest⟩
      · exact confined_pure ⟨liesIn_none, hrest⟩

theorem confined_exprStatement (hstart : LiesIn A start) (htokens : LiesIn A tokens) :
    Confined A (exprStatement ctx start tokens) := by
  unfold exprStatement
  refine confined_bind (confined_statementTokens hstart htokens) ?_
  rintro ⟨content?, rest⟩ ⟨hcontent, hrest⟩
  dsimp only at hcontent hrest ⊢
  have hnothing : LiesIn A ((none, rest) : Option Stmt × List Token) := ⟨liesIn_none, hrest⟩
  split
  · exact confined_pure hnothing
  · split
    · exact confined_pure hnothing
    · refine confined_bind (confined_expression hctx (liesIn_some.1 hcontent)) fun e? he => ?_
      split
      · refine confined_bind (confined_freshName ctx "expr") fun name _ => ?_
        exact confined_pure ⟨liesIn_some.2 ⟨hstart, he⟩, hrest⟩
      · exact confined_pure hnothing

theorem confined_condition (hword : LiesIn A word) (htokens : LiesIn A tokens) :
    Confined A (condition ctx word tokens) := by
  unfold condition
  refine confined_bind (confined_expect hctx htokens _) fun found? hfound => ?_
  split
  · exact confined_pure ⟨liesIn_none, htokens⟩
  · next opening inside =>
      obtain ⟨-, hinside⟩ := liesIn_some.1 hfound
      have hcut := liesIn_parenthesised hinside
      generalize parenthesised inside = cut at hcut ⊢
      obtain ⟨content, rest, closed⟩ := cut
      obtain ⟨hcontent, hrest, -⟩ := hcut
      dsimp only at hcontent hrest ⊢
      split
      · refine confined_bind (confined_unterminated hcontent hword _) fun _ _ => ?_
        exact confined_pure ⟨liesIn_none, hrest⟩
      · split
        · exact confined_refuse hword _ ⟨liesIn_none, hrest⟩
        · refine confined_bind (confined_expression hctx hcontent) fun e? he => ?_
          exact confined_pure ⟨he, hrest⟩

theorem confined_forStart (htokens : LiesIn A tokens) : Confined A (forStart ctx tokens) := by
  unfold forStart
  split
  · exact confined_pure (liesIn_some.2 trivial)
  · next first rest =>
      obtain ⟨hfirst, hrest⟩ := liesIn_cons.1 htokens
      split
      · refine confined_bind (confined_declParts hctx hfirst hrest) fun parts? hparts => ?_
        split
        · next name value => exact confined_pure (liesIn_some.2 ⟨hfirst, (liesIn_some.1 hparts).2⟩)
        · exact confined_pure liesIn_none
      · refine confined_bind (confined_expression hctx htokens) fun e? he => ?_
        exact confined_pure (liesIn_map he fun _ h => h)

theorem confined_optionalExpression (htokens : LiesIn A tokens) :
    Confined A (optionalExpression ctx tokens) := by
  unfold optionalExpression
  split
  · exact confined_pure (liesIn_some.2 liesIn_none)
  · refine confined_bind (confined_expression hctx htokens) fun e? he => ?_
    exact confined_pure (liesIn_map he fun _ h => liesIn_some.2 h)

theorem confined_forHeader {init cond step : List Token} (hinit : LiesIn A init)
    (hcond : LiesIn A cond) (hstep : LiesIn A step) :
    Confined A (forHeader ctx init cond step) := by
  unfold forHeader
  refine confined_bind (confined_forStart hctx hinit) fun start? hstart => ?_
  split
  · exact confined_pure liesIn_none
  · refine confined_bind (confined_optionalExpression hctx hcond) fun cond? hcond => ?_
    split
    · exact confined_pure liesIn_none
    · refine confined_bind (confined_optionalExpression hctx hstep) fun step? hstep => ?_
      refine confined_pure (liesIn_map hstep fun step? hstep => ?_)
      exact ⟨liesIn_some.1 hstart, liesIn_some.1 hcond, hstep⟩

end

/-! ## The readers that call each other -/

/-- The readers of statements with some fuel are confined to the area of the tokens that they are
given. -/
structure KeepTo (A : Area) (fuel : Nat) : Prop where
  statements : ∀ {ctx tokens}, LiesIn A ctx.final → LiesIn A tokens →
    Confined A (statements ctx fuel tokens)
  statement : ∀ {ctx tokens}, LiesIn A ctx.final → LiesIn A tokens →
    Confined A (statement ctx fuel tokens)
  branchBody : ∀ {ctx word tokens}, LiesIn A ctx.final → LiesIn A word → LiesIn A tokens →
    Confined A (branchBody ctx fuel word tokens)
  branch : ∀ {ctx word tokens}, LiesIn A ctx.final → LiesIn A word → LiesIn A tokens →
    Confined A (branch ctx fuel word tokens)
  doLoop : ∀ {ctx word tokens}, LiesIn A ctx.final → LiesIn A word → LiesIn A tokens →
    Confined A (doLoop ctx fuel word tokens)
  whileLoop : ∀ {ctx word tokens}, LiesIn A ctx.final → LiesIn A word → LiesIn A tokens →
    Confined A (whileLoop ctx fuel word tokens)
  forLoop : ∀ {ctx word tokens}, LiesIn A ctx.final → LiesIn A word → LiesIn A tokens →
    Confined A (forLoop ctx fuel word tokens)

/-- A reader that answers at most one statement, as a reader of statements. -/
theorem confined_single {x : Parsing (Option Stmt × List Token)} (hx : Confined A x) : Confined A
    (x >>= fun (stmt?, rest) => pure (stmt?.toList, rest) : Parsing (List Stmt × List Token)) := by
  refine confined_bind hx ?_
  rintro ⟨stmt?, rest⟩ ⟨hstmt, hrest⟩
  exact confined_pure ⟨liesIn_toList.2 hstmt, hrest⟩

section

variable {fuel : Nat} (h : KeepTo A fuel) {ctx : ParseContext} {word : Token} {tokens : List Token}

include h

/-- A block has an end of its own, unless it is empty; then nothing is read. -/
theorem KeepTo.block (function : Text) (htokens : LiesIn A tokens) :
    Confined A (Parsing.statements (.ofTokens function tokens) fuel tokens) := by
  by_cases hne : tokens = []
  · subst hne
    cases fuel with
    | zero => exact confined_pure liesIn_nil
    | succ fuel => exact confined_pure liesIn_nil
  · exact h.statements (liesIn_ofTokens htokens hne) htokens

/-- A block behind its opening brace. -/
theorem KeepTo.braces (function : Text) {opening : Token} (hopening : LiesIn A opening)
    (htokens : LiesIn A tokens) (cause : Cause) :
    Confined A (match braced tokens with
      | (body, rest, closed) => do
        if !closed then unterminated body opening cause
        return (← Parsing.statements (.ofTokens function body) fuel body, rest)) := by
  have hcut := liesIn_braced htokens
  generalize braced tokens = cut at hcut ⊢
  obtain ⟨body, rest, closed⟩ := cut
  obtain ⟨hbody, hrest, -⟩ := hcut
  dsimp only at hbody hrest ⊢
  have hblock : Confined A (Parsing.statements (.ofTokens function body) fuel body >>= fun body =>
      pure (body, rest)) :=
    confined_bind (h.block function hbody) fun _ hstmts => confined_pure ⟨hstmts, hrest⟩
  split
  · exact confined_bind (confined_unterminated hbody hopening cause) fun _ _ => hblock
  · exact hblock

variable (hctx : LiesIn A ctx.final) (hword : LiesIn A word) (htokens : LiesIn A tokens)

include hctx htokens

theorem KeepTo.next_statements : Confined A (Parsing.statements ctx (fuel + 1) tokens) := by
  cases tokens with
  | nil => exact confined_pure liesIn_nil
  | cons t rest =>
      refine confined_bind (h.statement hctx htokens) ?_
      rintro ⟨first, rest₁⟩ ⟨hfirst, hrest₁⟩
      refine confined_bind (h.statements hctx hrest₁) fun more hmore => ?_
      exact confined_pure (liesIn_append.2 ⟨hfirst, hmore⟩)

theorem KeepTo.next_statement : Confined A (Parsing.statement ctx (fuel + 1) tokens) := by
  cases tokens with
  | nil => exact confined_pure ⟨liesIn_nil, liesIn_nil⟩
  | cons t rest =>
      obtain ⟨ht, hrest⟩ := liesIn_cons.1 htokens
      -- one case for each kind of first token: a type, the five words of statements, a brace, a
      -- semicolon
      unfold Parsing.statement
      split
      case h_1 =>
        refine confined_bind (confined_variable hctx ht hrest) ?_
        rintro ⟨_ | d, rest₁⟩ ⟨hdecl, hrest₁⟩
        · exact confined_pure ⟨liesIn_nil, hrest₁⟩
        · have hd : LiesIn A d := liesIn_some.1 hdecl
          exact confined_pure ⟨liesIn_cons.2 ⟨hd, liesIn_nil⟩, hrest₁⟩
      case h_2 =>
        refine confined_bind (confined_freshName ctx "if") fun name _ => ?_
        refine confined_bind (h.branch hctx ht hrest) ?_
        rintro ⟨branch?, rest₁⟩ ⟨hbranch, hrest₁⟩
        refine confined_pure (liesIn_pair.2 ⟨liesIn_toList.2 (liesIn_map hbranch ?_), hrest₁⟩)
        exact fun _ h => liesIn_ifElse.2 ⟨ht, h⟩
      case h_3 => exact confined_single (h.doLoop hctx ht hrest)
      case h_4 => exact confined_single (h.whileLoop hctx ht hrest)
      case h_5 => exact confined_single (h.forLoop hctx ht hrest)
      case h_6 => exact confined_single (confined_return hctx ht hrest)
      case h_7 => exact h.braces ctx.function ht hrest .unclosedBlock
      case h_8 => exact confined_pure ⟨liesIn_nil, hrest⟩
      -- what cannot start a statement is reported at the token and skipped
      case h_9 | h_10 => exact confined_refuse ht _ ⟨liesIn_nil, liesIn_recover htokens⟩
      case h_11 => exact confined_refuse ht _ ⟨liesIn_nil, liesIn_recover hrest⟩
      case h_12 => exact confined_single (confined_exprStatement hctx ht htokens)

include hword

theorem KeepTo.next_branchBody : Confined A (Parsing.branchBody ctx (fuel + 1) word tokens) := by
  unfold Parsing.branchBody
  dsimp only
  split
  · exact confined_refuse hword _ ⟨liesIn_nil, liesIn_nil⟩
  · next t rest =>
      obtain ⟨ht, hrest⟩ := liesIn_cons.1 htokens
      split
      · exact h.braces ctx.function ht hrest _
      · exact h.statement hctx htokens

theorem KeepTo.next_branch : Confined A (Parsing.branch ctx (fuel + 1) word tokens) := by
  unfold Parsing.branch
  dsimp only
  refine confined_bind (confined_condition hctx hword htokens) ?_
  rintro ⟨_ | cond, rest⟩ ⟨hcond, hrest⟩
  · exact confined_pure ⟨liesIn_none, liesIn_recover hrest⟩
  refine confined_bind (h.branchBody hctx hword hrest) ?_
  rintro ⟨body, rest₁⟩ ⟨hbody, hrest₁⟩
  have hcond : LiesIn A cond := liesIn_some.1 hcond
  -- whether an else follows is seen at tokens of the area
  have helse := liesIn_accept .elseWord hrest₁
  dsimp only at hbody hrest₁ helse ⊢
  split
  · exact confined_pure ⟨liesIn_some.2 ⟨hcond, hbody, trivial⟩, hrest₁⟩
  · next elseToken rest₂ hfound =>
      rw [hfound] at helse
      obtain ⟨helseToken, hrest₂⟩ := liesIn_some.1 helse
      have hif := liesIn_accept .ifWord hrest₂
      refine confined_bind (confined_freshName ctx "else") fun name _ => ?_
      split
      · -- an else with a condition hands over to the reader of branches
        next ifToken rest₃ hfound =>
          rw [hfound] at hif
          obtain ⟨hifToken, hrest₃⟩ := liesIn_some.1 hif
          refine confined_bind (h.branch hctx hifToken hrest₃) ?_
          rintro ⟨next?, rest₄⟩ ⟨hnext, hrest₄⟩
          refine confined_pure (liesIn_pair.2 ⟨liesIn_map hnext ?_, hrest₄⟩)
          rintro ⟨cond', body', more⟩ hmore
          exact ⟨hcond, hbody, liesIn_elseIf.2 ⟨hifToken, hmore⟩⟩
      · -- one without is the last branch
        refine confined_bind (h.branchBody hctx helseToken hrest₂) ?_
        rintro ⟨elseBody, rest₃⟩ ⟨helseBody, hrest₃⟩
        refine confined_pure ⟨liesIn_some.2 ⟨hcond, hbody, ?_⟩, hrest₃⟩
        exact liesIn_otherwise.2 ⟨helseToken, helseBody⟩

theorem KeepTo.next_doLoop : Confined A (Parsing.doLoop ctx (fuel + 1) word tokens) := by
  unfold Parsing.doLoop
  dsimp only
  refine confined_bind (confined_freshName ctx "do") fun name _ => ?_
  refine confined_bind (h.branchBody hctx hword htokens) ?_
  rintro ⟨body, rest⟩ ⟨hbody, hrest⟩
  refine confined_bind (confined_expect hctx hrest _) ?_
  rintro (_ | ⟨whileToken, rest₁⟩) hwhile
  · exact confined_pure ⟨liesIn_none, liesIn_recover hrest⟩
  obtain ⟨hwhileToken, hrest₁⟩ := liesIn_some.1 hwhile
  refine confined_bind (confined_condition hctx hwhileToken hrest₁) ?_
  rintro ⟨_ | cond, rest₂⟩ ⟨hcond, hrest₂⟩
  · exact confined_pure ⟨liesIn_none, liesIn_recover hrest₂⟩
  refine confined_bind (confined_expect hctx hrest₂ _) ?_
  rintro (_ | ⟨semicolon, rest₃⟩) hsemicolon
  · exact confined_pure ⟨liesIn_none, hrest₂⟩
  refine confined_pure ⟨liesIn_some.2 (liesIn_loop.2 ?_), (liesIn_some.1 hsemicolon).2⟩
  exact ⟨hword, hcond, liesIn_none, trivial, hbody⟩

theorem KeepTo.next_whileLoop : Confined A (Parsing.whileLoop ctx (fuel + 1) word tokens) := by
  unfold Parsing.whileLoop
  dsimp only
  refine confined_bind (confined_freshName ctx "while") fun name _ => ?_
  refine confined_bind (confined_condition hctx hword htokens) ?_
  rintro ⟨_ | cond, rest⟩ ⟨hcond, hrest⟩
  · exact confined_pure ⟨liesIn_none, liesIn_recover hrest⟩
  refine confined_bind (h.branchBody hctx hword hrest) ?_
  rintro ⟨body, rest₁⟩ ⟨hbody, hrest₁⟩
  refine confined_pure ⟨liesIn_some.2 (liesIn_loop.2 ?_), hrest₁⟩
  exact ⟨hword, hcond, liesIn_none, trivial, hbody⟩

theorem KeepTo.next_forLoop : Confined A (Parsing.forLoop ctx (fuel + 1) word tokens) := by
  unfold Parsing.forLoop
  dsimp only
  refine confined_bind (confined_freshName ctx "for") fun name _ => ?_
  refine confined_bind (confined_expect hctx htokens _) ?_
  rintro (_ | ⟨opening, inside⟩) hopening
  · exact confined_pure ⟨liesIn_none, liesIn_recover htokens⟩
  -- the header is cut out first, whatever is in it
  have hcut := liesIn_parenthesised (liesIn_some.1 hopening).2
  dsimp only at hcut ⊢
  generalize parenthesised inside = cut at hcut ⊢
  obtain ⟨header, rest, closed⟩ := cut
  obtain ⟨hheader, hrest, -⟩ := hcut
  dsimp only at hheader hrest ⊢
  have hnothing : LiesIn A ((none, rest) : Option Stmt × List Token) := ⟨liesIn_none, hrest⟩
  split
  · exact confined_bind (confined_unterminated hheader hword _) fun _ _ => confined_pure hnothing
  · -- three parts make a header; any other number is reported at the word
    have hparts := liesIn_splitTop .semicolon 0 hheader
    split
    · next init cond step hfound =>
        rw [hfound] at hparts
        simp only [liesIn_cons] at hparts
        obtain ⟨hinit, hcond, hstep, -⟩ := hparts
        refine confined_bind (confined_forHeader hctx hinit hcond hstep) ?_
        rintro (_ | ⟨start, cond?, step?⟩) hheader
        · exact confined_pure hnothing
        obtain ⟨hstart, hcond?, hstep?⟩ := liesIn_some.1 hheader
        refine confined_bind (h.branchBody hctx hword hrest) ?_
        rintro ⟨body, rest₁⟩ ⟨hbody, hrest₁⟩
        refine confined_pure ⟨liesIn_some.2 (liesIn_loop.2 ?_), hrest₁⟩
        exact ⟨hword, hcond?, hstep?, hstart, hbody⟩
    · refine confined_bind (confined_report hword) fun _ _ => ?_
      refine confined_bind (h.branchBody hctx hword hrest) ?_
      rintro ⟨body, rest₁⟩ ⟨-, hrest₁⟩
      exact confined_pure ⟨liesIn_none, hrest₁⟩

end

/-- The induction is on the fuel; without any, every reader hands back the tokens that it got. -/
theorem keepTo (fuel : Nat) : KeepTo A fuel := by
  induction fuel with
  | zero =>
      exact {
        statements := fun _ _ => by
          unfold statements
          exact confined_pure liesIn_nil
        statement := fun _ htokens => by
          unfold statement
          exact confined_pure ⟨liesIn_nil, htokens⟩
        branchBody := fun _ _ htokens => by
          unfold branchBody
          exact confined_pure ⟨liesIn_nil, htokens⟩
        branch := fun _ _ htokens => by
          unfold branch
          exact confined_pure ⟨liesIn_none, htokens⟩
        doLoop := fun _ _ htokens => by
          unfold doLoop
          exact confined_pure ⟨liesIn_none, htokens⟩
        whileLoop := fun _ _ htokens => by
          unfold whileLoop
          exact confined_pure ⟨liesIn_none, htokens⟩
        forLoop := fun _ _ htokens => by
          unfold forLoop
          exact confined_pure ⟨liesIn_none, htokens⟩ }
  | succ fuel ih =>
      exact {
        statements := fun hctx htokens => ih.next_statements hctx htokens
        statement := fun hctx htokens => ih.next_statement hctx htokens
        branchBody := fun hctx hword htokens => ih.next_branchBody hctx hword htokens
        branch := fun hctx hword htokens => ih.next_branch hctx hword htokens
        doLoop := fun hctx hword htokens => ih.next_doLoop hctx hword htokens
        whileLoop := fun hctx hword htokens => ih.next_whileLoop hctx hword htokens
        forLoop := fun hctx hword htokens => ih.next_forLoop hctx hword htokens }

/-- The statements of the body of a function. -/
theorem confined_body {function : Text} {tokens : List Token} (htokens : LiesIn A tokens) :
    Confined A (body function tokens) := (keepTo _).block function htokens

/-! ## The top of a unit -/

theorem confined_parameters {word name : Token} (hword : LiesIn A word) {parts : List (List Token)}
    (hparts : LiesIn A parts) : Confined A (parameters word name parts) := by
  induction parts with
  | nil => exact confined_pure (liesIn_some.2 liesIn_nil)
  | cons part rest ih =>
      obtain ⟨hpart, hrest⟩ := liesIn_cons.1 hparts
      unfold parameters
      split
      · next type param =>
          obtain ⟨htype, hparam⟩ := liesIn_cons.1 hpart
          split
          · exact confined_refuse hword _ liesIn_none
          · dsimp only
            split
            · exact confined_refuse htype _ liesIn_none
            · refine confined_bind (ih hrest) fun more? hmore => ?_
              refine confined_pure (liesIn_map hmore fun more hmore => ?_)
              exact liesIn_cons.2 ⟨(liesIn_cons.1 hparam).1, hmore⟩
      · exact confined_refuse hword _ liesIn_none

/-- A reader of one form of declaration, as a reader of declarations. -/
theorem confined_made {α : Type} [Located α] {x : Parsing (Option α × List Token)} {make : α → Decl}
    (hx : Confined A x) (hmake : ∀ a, LiesIn A a → LiesIn A (make a)) : Confined A
      (x >>= fun (a?, rest) => pure (a?.map make, rest) : Parsing (Option Decl × List Token)) := by
  refine confined_bind hx ?_
  rintro ⟨a?, rest⟩ ⟨ha, hrest⟩
  exact confined_pure (liesIn_pair.2 ⟨liesIn_map ha hmake, hrest⟩)

section

variable {ctx : ParseContext} (hctx : LiesIn A ctx.final) {word t : Token}
  {tokens rest : List Token}

include hctx

theorem confined_returnType (htokens : LiesIn A tokens) : Confined A (returnType ctx tokens) := by
  have hassign := liesIn_accept .assign htokens
  unfold returnType
  split
  · exact confined_pure ⟨liesIn_some.2 trivial, htokens⟩
  · next sign rest hfound =>
      rw [hfound] at hassign
      obtain ⟨-, hrest⟩ := liesIn_some.1 hassign
      refine confined_bind (confined_expect hctx hrest _) ?_
      rintro (_ | ⟨type, rest₁⟩) htype
      · exact confined_pure ⟨liesIn_none, liesIn_recover hrest⟩
      · exact confined_pure ⟨liesIn_some.2 trivial, (liesIn_some.1 htype).2⟩

theorem confined_functionEnd {announced : FuncDecl} (hannounced : LiesIn A announced)
    (htokens : LiesIn A tokens) : Confined A (functionEnd ctx announced tokens) := by
  have hsemicolon := liesIn_accept .semicolon htokens
  unfold functionEnd
  split
  · next semicolon rest hfound =>
      rw [hfound] at hsemicolon
      exact confined_pure ⟨liesIn_some.2 hannounced, (liesIn_some.1 hsemicolon).2⟩
  · refine confined_bind (confined_expect hctx htokens _) ?_
    rintro (_ | ⟨opening, inside⟩) hopening
    · exact confined_pure ⟨liesIn_none, liesIn_recover htokens⟩
    obtain ⟨hbrace, hinside⟩ := liesIn_some.1 hopening
    have hcut := liesIn_braced hinside
    dsimp only at hcut hbrace ⊢
    generalize braced inside = cut at hcut ⊢
    obtain ⟨inner, rest, closed⟩ := cut
    obtain ⟨hinner, hrest, -⟩ := hcut
    dsimp only at hinner hrest ⊢
    have hbody : Confined A (body announced.name inner >>= fun stmts =>
        pure (some { announced with body? := some stmts }, rest)) := by
      refine confined_bind (confined_body hinner) fun stmts hstmts => ?_
      have hdefined : LiesIn A { announced with body? := some stmts } :=
        ⟨hannounced.1, hannounced.2.1, liesIn_some.2 hstmts⟩
      exact confined_pure ⟨liesIn_some.2 hdefined, hrest⟩
    split
    · exact confined_bind (confined_unterminated hinner hbrace _) fun _ _ => hbody
    · exact hbody

theorem confined_functionTail (name : Token) {params : List Param} (hword : LiesIn A word)
    (hparams : LiesIn A params) (htokens : LiesIn A tokens) :
    Confined A (functionTail ctx word name params tokens) := by
  unfold functionTail
  refine confined_bind (confined_returnType hctx htokens) ?_
  rintro ⟨_ | type, rest⟩ ⟨-, hrest⟩
  · exact confined_pure ⟨liesIn_none, hrest⟩
  · exact confined_functionEnd hctx ⟨hword, hparams, liesIn_none⟩ hrest

/-- What follows the parameters, if they could be read. -/
theorem confined_counted (name : Token) {params? : Option (List Param)} (hword : LiesIn A word)
    (hparams : LiesIn A params?) (htokens : LiesIn A tokens) : Confined A (match params? with
      | none => return (none, tokens)
      | some params => do
        if maxParameters < params.length then report word (.tooManyParameters name.text)
        functionTail ctx word name params tokens) := by
  cases params? with
  | none => exact confined_pure ⟨liesIn_none, htokens⟩
  | some params =>
      have htail := confined_functionTail hctx name hword (liesIn_some.1 hparams) htokens
      dsimp only
      split
      · exact confined_bind (confined_report hword) fun _ _ => htail
      · exact htail

theorem confined_function (hword : LiesIn A word) (htokens : LiesIn A tokens) :
    Confined A (function ctx word tokens) := by
  have hname := liesIn_accept .text htokens
  unfold function
  split
  · exact confined_refuse hword _ ⟨liesIn_none, liesIn_recover htokens⟩
  · next name rest hfound =>
      rw [hfound] at hname
      obtain ⟨-, hrest⟩ := liesIn_some.1 hname
      split
      · exact confined_refuse hword _ ⟨liesIn_none, liesIn_recover hrest⟩
      refine confined_bind (confined_expect hctx hrest _) ?_
      rintro (_ | ⟨opening, inside⟩) hopening
      · exact confined_pure ⟨liesIn_none, liesIn_recover hrest⟩
      -- the parameters are cut out at the matching parenthesis
      have hcut := liesIn_parenthesised (liesIn_some.1 hopening).2
      dsimp only at hcut ⊢
      generalize parenthesised inside = cut at hcut ⊢
      obtain ⟨inner, behind, closed⟩ := cut
      obtain ⟨hinner, hbehind, -⟩ := hcut
      dsimp only at hinner hbehind ⊢
      have hnothing : LiesIn A ((none, behind) : Option FuncDecl × List Token) :=
        ⟨liesIn_none, hbehind⟩
      split
      · exact confined_bind (confined_unterminated hinner hword _) fun _ _ => confined_pure hnothing
      -- what follows them is read in the same way with and without parameters
      have htail (params? : Option (List Param)) (hparams : LiesIn A params?) :=
        confined_counted hctx name hword hparams hbehind
      split
      · exact confined_bind (confined_pure (liesIn_some.2 liesIn_nil)) htail
      · exact confined_bind (confined_parameters hword (liesIn_splitTop _ _ hinner)) htail

theorem confined_field (hword : LiesIn A word) (htokens : LiesIn A tokens) :
    Confined A (field ctx word tokens) := by
  unfold field
  refine confined_bind (confined_expect hctx htokens _) ?_
  rintro (_ | ⟨type, rest⟩) htype
  · exact confined_pure ⟨liesIn_none, liesIn_recover htokens⟩
  obtain ⟨htype, hrest⟩ := liesIn_some.1 htype
  refine confined_bind (confined_declTail hctx htype hrest) ?_
  rintro ⟨parts?, rest₁⟩ ⟨hparts, hrest₁⟩
  exact confined_pure (liesIn_pair.2 ⟨liesIn_map hparts fun _ h => ⟨hword, h.2⟩, hrest₁⟩)

theorem confined_declaration (ht : LiesIn A t) (hrest : LiesIn A rest) :
    Confined A (declaration ctx t rest) := by
  unfold declaration
  split
  case h_1 => exact confined_made (confined_function hctx ht hrest) fun _ h => h
  case h_2 => exact confined_made (confined_field hctx ht hrest) fun _ h => h
  case h_3 => exact confined_made (confined_variable hctx ht hrest) fun _ h => h
  case h_4 => exact confined_pure ⟨liesIn_none, hrest⟩
  case h_11 =>
    exact confined_refuse ht _ ⟨liesIn_none, liesIn_recover (liesIn_cons.2 ⟨ht, hrest⟩)⟩
  all_goals exact confined_refuse ht _ ⟨liesIn_none, liesIn_recover hrest⟩

theorem confined_declarations (fuel : Nat) (htokens : LiesIn A tokens) :
    Confined A (declarations ctx fuel tokens) := by
  induction fuel generalizing tokens with
  | zero =>
      unfold declarations
      exact confined_pure liesIn_nil
  | succ fuel ih =>
      cases tokens with
      | nil => exact confined_pure liesIn_nil
      | cons t rest =>
          obtain ⟨ht, hrest⟩ := liesIn_cons.1 htokens
          refine confined_bind (confined_declaration hctx ht hrest) ?_
          rintro ⟨decl?, rest₁⟩ ⟨hdecl, hrest₁⟩
          refine confined_bind (ih hrest₁) fun more hmore => ?_
          exact confined_pure (liesIn_append.2 ⟨liesIn_toList.2 hdecl, hmore⟩)

end

/-- The parser reports only at tokens of its input, and the declarations are made of them. -/
theorem confined_program {tokens : List Token} (htokens : LiesIn A tokens) :
    Confined A (program tokens) := by
  by_cases hne : tokens = []
  · subst hne
    exact confined_pure liesIn_nil
  · exact confined_declarations (liesIn_ofTokens htokens hne) _ htokens

end Parsing

end TickScript
