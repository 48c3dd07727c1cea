import Mathlib.Data.List.Forall2
import TickScript.Proofs.Expr.Parser
import TickScript.Proofs.Stmt.Grammar
import TickScript.Proofs.Syntax

/-!
# What is read was written

A unit that is read without a report is read as what its tokens write. Every way out of a reader that
gives no tree reports something, so a clean run always answers one, and what a reader takes off the
front of its tokens is a way to write its answer.

The readers count their calls down; four calls for each token are always enough.

The statements are those of `Answers`: whatever a clean run of a reader answers, some writing stands
in front of the tokens that it leaves. With the induction on fuel this goes through all readers of
statements at once (`WritingReaders`); an unclosed string is the one thing that a reader accepts
although it is not written by the grammar, so the absence of its report is a condition that is
carried along.
-/

namespace TickScript

theorem Stmt.Writes.one_ne_nil {content : TokenKind → Prop} {fn : Text} {ts : List Token}
    {next : Option TokenKind} {ss : List Stmt} (h : Stmt.Writes content fn ts (.one next ss)) :
    ts ≠ [] := by
  cases h <;> simp

theorem WritesDecl.ne_nil {content : TokenKind → Prop} {ts : List Token} {d : Decl}
    (h : WritesDecl content ts d) : ts ≠ [] := by
  cases h <;> simp

namespace Parsing

open Stage
open TickScript.Expr (AnyContent)
open Stmt (Writes Declares)

/-- What clean runs of a reader answer while no unclosed string was reported. -/
abbrev Answers {α : Type} (x : Parsing α) (Q : α → Prop) : Prop :=
  Ensures (fun s => s.quotes = []) x Q

/-! ## Cutting -/

theorem segment_closed {opening? : Option TokenKind} {closing : TokenKind} {depth : Nat}
    {tokens inner rest : List Token}
    (h : segment opening? closing depth tokens = (inner, rest, true)) :
    ∃ t, t.kind = closing ∧ tokens = inner ++ t :: rest := by
  induction tokens generalizing depth inner with
  | nil =>
    rw [segment] at h
    cases h
  | cons t tokens ih =>
    rw [segment] at h
    split at h
    next hclose =>
      cases h
      simp only [Bool.and_eq_true, decide_eq_true_eq] at hclose
      exact ⟨t, hclose.1, rfl⟩
    next =>
      dsimp only at h
      generalize (if opening? = some t.kind then depth + 1
        else if t.kind = closing then depth - 1 else depth) = d at h
      rcases hinner : segment opening? closing d tokens with ⟨inner', rest', closed⟩
      rw [hinner] at h
      cases h
      obtain ⟨closer, hkind, rfl⟩ := ih hinner
      exact ⟨closer, hkind, rfl⟩

/-- The parts with a token in front of the first one. -/
def prepend (t : Token) : List (List Token) → List (List Token)
  | [] => [[t]]
  | part :: parts => (t :: part) :: parts

theorem splitTop_cons (separator : TokenKind) (depth : Int) (t : Token) (rest : List Token) :
    (t.kind = separator ∧ splitTop separator depth (t :: rest) = [] :: splitTop separator depth rest)
      ∨ ∃ d, splitTop separator depth (t :: rest) = prepend t (splitTop separator d rest) := by
  rw [splitTop]
  split
  all_goals first
    | exact .inr ⟨_, rfl⟩
    | skip
  split
  next hsep =>
    simp only [Bool.and_eq_true, decide_eq_true_eq] at hsep
    exact .inl ⟨hsep.1, rfl⟩
  next => exact .inr ⟨_, rfl⟩

/-- The tokens of parts with a separator in front of each. -/
def Joined (separator : TokenKind) : List (List Token) → List Token → Prop
  | [], tokens => tokens = []
  | part :: parts, tokens =>
    ∃ sep rest, sep.kind = separator ∧ tokens = sep :: (part ++ rest) ∧ Joined separator parts rest

/-- The parts are the tokens between separators. -/
theorem splitTop_joined (separator : TokenKind) (depth : Int) (tokens : List Token) :
    ∃ part parts rest, splitTop separator depth tokens = part :: parts
      ∧ tokens = part ++ rest ∧ Joined separator parts rest := by
  induction tokens generalizing depth with
  | nil => exact ⟨[], [], [], rfl, rfl, rfl⟩
  | cons t tokens ih =>
    obtain ⟨hsep, heq⟩ | ⟨d, heq⟩ := splitTop_cons separator depth t tokens
    · obtain ⟨part, parts, rest, hsplit, rfl, hjoined⟩ := ih depth
      rw [heq, hsplit]
      exact ⟨[], part :: parts, t :: (part ++ rest), rfl, rfl, t, rest, hsep, rfl, hjoined⟩
    · obtain ⟨part, parts, rest, hsplit, rfl, hjoined⟩ := ih d
      rw [heq, hsplit]
      exact ⟨t :: part, parts, rest, rfl, rfl, hjoined⟩

theorem nextKind_ne_of_accept_none {kind : TokenKind} {tokens : List Token}
    (h : accept kind tokens = none) : nextKind tokens ≠ some kind := by
  cases tokens with
  | nil => simp [nextKind]
  | cons t rest =>
    intro hkind
    rw [nextKind_cons, Option.some.injEq] at hkind
    simp [accept, hkind] at h

/-! ## Parts of statements -/

theorem answers_unterminated (content : List Token) (t : Token) (cause : Cause) :
    Answers (unterminated content t cause) fun _ => False := by
  unfold unterminated
  split
  · refine ensures_bind ensures_get fun s hs => ?_
    -- No string was reported yet, so this one is.
    rw [hs]
    intro s r log _ hrun
    cases hrun
  · exact ensures_report

theorem answers_freshName (ctx : ParseContext) (kind : String) :
    Answers (freshName ctx kind) fun _ => True :=
  ensures_bind (ensures_modify fun _ h => h) fun _ _ =>
    ensures_bind ensures_get fun _ _ => ensures_pure trivial

theorem answers_expect (ctx : ParseContext) (kind : TokenKind) (tokens : List Token) :
    Answers (expect ctx kind tokens) fun r =>
      ∃ t rest, r = some (t, rest) ∧ t.kind = kind ∧ tokens = t :: rest := by
  unfold expect
  split
  next found haccept => exact ensures_pure ⟨found.1, found.2, rfl, accept_eq_some haccept⟩
  next => exact ensures_report_bind

theorem answers_expression (ctx : ParseContext) (tokens : List Token) :
    Answers (expression ctx tokens) fun r =>
      ∃ e, r = some e ∧ Expr.Derives AnyContent 1 tokens e := by
  unfold expression
  split
  next e hparse => exact ensures_pure ⟨e, rfl, Expr.parse_eq_ok_iff.1 hparse⟩
  next => exact ensures_report_bind
  next => exact ensures_report_bind

theorem answers_statementTokens (start : Token) (tokens : List Token) :
    Answers (statementTokens start tokens) fun r =>
      ∃ content semicolon, r.1 = some content ∧ semicolon.kind = .semicolon
        ∧ tokens = content ++ semicolon :: r.2 := by
  unfold statementTokens
  rcases hcut : segment none .semicolon 0 tokens with ⟨content, rest, closed⟩
  cases closed with
  | true =>
    obtain ⟨semicolon, hkind, htokens⟩ := segment_closed hcut
    exact ensures_pure ⟨content, semicolon, rfl, hkind, htokens⟩
  | false => exact ensures_bind (answers_unterminated _ _ _) fun _ h => h.elim

theorem answers_declParts (ctx : ParseContext) (type : Token) (content : List Token) :
    Answers (declParts ctx type content) fun r => ∃ parts, r = some parts
      ∧ Declares AnyContent ctx.function type content (varDecl ctx type parts.1 parts.2) := by
  unfold declParts
  split
  next => exact ensures_report_bind
  -- a report on the way ends the clean run; what is left is a type, a name and perhaps a sign with a
  -- value
  next hvoid =>
    have hnonvoid : type.text ≠ Text.ofString "void" := by simpa using hvoid
    split
    next => exact ensures_report_bind
    next name rest =>
      split
      next => exact ensures_report_bind
      next hname =>
        simp only [ne_eq, decide_not, Bool.or_eq_true, Bool.not_eq_true', not_or,
          decide_eq_false_iff_not, Decidable.not_not, Bool.not_eq_false] at hname
        split
        next => exact ensures_pure ⟨(name, none), rfl, .plain hnonvoid hname.1 hname.2⟩
        next sign init =>
          split
          next => exact ensures_report_bind
          next hsign =>
            split
            next => exact ensures_report_bind
            next =>
              refine ensures_bind (answers_expression ctx init) ?_
              rintro _ ⟨e, rfl, hderives⟩
              exact ensures_pure ⟨(name, some e), rfl,
                .initial hnonvoid hname.1 hname.2 (by simpa using hsign) hderives⟩

/-- The tokens of a declaration behind its type, and what follows it. -/
def Declared (ctx : ParseContext) (type : Token) (tokens : List Token) (d : VarDecl)
    (rest : List Token) : Prop :=
  ∃ ts semicolon, semicolon.kind = .semicolon ∧ tokens = ts ++ semicolon :: rest
    ∧ Declares AnyContent ctx.function type ts d

theorem answers_declTail (ctx : ParseContext) (type : Token) (tokens : List Token) :
    Answers (declTail ctx type tokens) fun r => ∃ parts, r.1 = some parts
      ∧ Declared ctx type tokens (varDecl ctx type parts.1 parts.2) r.2 := by
  unfold declTail
  refine ensures_bind (answers_statementTokens type tokens) ?_
  rintro ⟨_, rest⟩ ⟨content, semicolon, rfl, hkind, htokens⟩
  refine ensures_bind (answers_declParts ctx type content) ?_
  rintro _ ⟨parts, rfl, hdeclares⟩
  exact ensures_pure ⟨parts, rfl, content, semicolon, hkind, htokens, hdeclares⟩

theorem answers_variable (ctx : ParseContext) (type : Token) (tokens : List Token) :
    Answers (variable_ ctx type tokens) fun r => ∃ d, r.1 = some d
      ∧ Declared ctx type tokens d r.2 := by
  refine ensures_bind (answers_declTail ctx type tokens) ?_
  rintro ⟨_, rest⟩ ⟨parts, rfl, hdeclared⟩
  exact ensures_pure ⟨_, rfl, hdeclared⟩

/-- A stretch at the front of the tokens is a writing of a form, in front of what is left. -/
def Taken (fn : Text) (tokens : List Token) (form : Option TokenKind → Stmt.Form)
    (rest : List Token) : Prop :=
  ∃ used, tokens = used ++ rest ∧ Writes AnyContent fn used (form (nextKind rest))

/-- A reader that takes one statement off the front. -/
abbrev TakesOne (fn : Text) (tokens : List Token) (x : Parsing (Option Stmt × List Token)) : Prop :=
  Answers x fun r => ∃ s, r.1 = some s ∧ Taken fn tokens (.one · [s]) r.2

theorem takesOne_toList {fn : Text} {tokens : List Token} {x : Parsing (Option Stmt × List Token)}
    (hx : TakesOne fn tokens x) :
    Answers (do let (stmt?, rest) ← x; return (stmt?.toList, rest)) fun r =>
      Taken fn tokens (.one · r.1) r.2 := by
  refine ensures_bind hx ?_
  rintro ⟨_, rest⟩ ⟨s, rfl, htaken⟩
  exact ensures_pure htaken

theorem takesOne_return (ctx : ParseContext) {word : Token} (hword : word.kind = .returnWord)
    (tokens : List Token) : TakesOne ctx.function (word :: tokens) (return_ ctx word tokens) := by
  refine ensures_bind (answers_statementTokens word tokens) ?_
  rintro ⟨_, rest⟩ ⟨content, semicolon, rfl, hkind, rfl⟩
  refine ensures_bind (answers_freshName ctx "return") fun name _ => ?_
  have htaken {e? : Option Expr} (he : Stmt.Maybe AnyContent content e?) :
      Taken ctx.function (word :: (content ++ semicolon :: rest))
        (.one · [.expr name word .return_ e?]) rest :=
    ⟨word :: (content ++ [semicolon]), by simp, .return_ hword hkind he⟩
  dsimp only
  split
  next hempty =>
    obtain rfl := List.isEmpty_iff.1 hempty
    exact ensures_pure ⟨_, rfl, htaken .none⟩
  next =>
    refine ensures_bind (answers_expression ctx content) ?_
    rintro _ ⟨e, rfl, hderives⟩
    exact ensures_pure ⟨_, rfl, htaken (.some hderives)⟩

/-- An expression statement; the tokens do not start with a semicolon. -/
theorem takesOne_exprStatement (ctx : ParseContext) {start : Token} {tokens : List Token}
    (hstart : start.kind ≠ .semicolon) :
    TakesOne ctx.function (start :: tokens) (exprStatement ctx start (start :: tokens)) := by
  refine ensures_bind (answers_statementTokens start (start :: tokens)) ?_
  rintro ⟨_, rest⟩ ⟨content, semicolon, rfl, hkind, htokens⟩
  cases content with
  | nil =>
    obtain ⟨rfl, -⟩ := List.cons.inj htokens
    exact absurd hkind hstart
  | cons first more =>
    obtain ⟨rfl, rfl⟩ := List.cons.inj htokens
    refine ensures_bind (answers_expression ctx (start :: more)) ?_
    rintro _ ⟨e, rfl, hderives⟩
    refine ensures_bind (answers_freshName ctx "expr") fun name _ => ?_
    exact ensures_pure ⟨_, rfl, start :: more ++ [semicolon], by simp,
      .effect rfl hkind hderives⟩

/-- The tokens of a condition in parentheses, and what follows it. -/
def Conditioned (tokens : List Token) (e : Expr) (rest : List Token) : Prop :=
  ∃ opening c closing, opening.kind = .leftParen ∧ closing.kind = .rightParen
    ∧ tokens = opening :: (c ++ closing :: rest) ∧ Expr.Derives AnyContent 1 c e

theorem answers_condition (ctx : ParseContext) (word : Token) (tokens : List Token) :
    Answers (condition ctx word tokens) fun r => ∃ e, r.1 = some e ∧ Conditioned tokens e r.2 := by
  refine ensures_bind (answers_expect ctx .leftParen tokens) ?_
  rintro _ ⟨opening, inside, rfl, hopening, rfl⟩
  dsimp only
  rcases hcut : parenthesised inside with ⟨content, rest, closed⟩
  cases closed with
  | false => exact ensures_bind (answers_unterminated _ _ _) fun _ h => h.elim
  | true =>
    obtain ⟨closing, hclosing, rfl⟩ := segment_closed hcut
    dsimp only [Bool.not_true]
    split
    next h => cases h
    next =>
      split
      next => exact ensures_report_bind
      next =>
        refine ensures_bind (answers_expression ctx content) ?_
        rintro _ ⟨e, rfl, hderives⟩
        exact ensures_pure ⟨e, rfl, opening, content, closing, hopening, hclosing, rfl, hderives⟩

theorem answers_forStart (ctx : ParseContext) (tokens : List Token) :
    Answers (forStart ctx tokens) fun r =>
      ∃ start, r = some start ∧ Stmt.Starts AnyContent ctx.function tokens start := by
  cases tokens with
  | nil => exact ensures_pure ⟨.nothing, rfl, .nothing⟩
  | cons first rest =>
    rw [forStart]
    split
    next htype =>
      refine ensures_bind (answers_declParts ctx first rest) ?_
      rintro _ ⟨parts, rfl, hdeclares⟩
      exact ensures_pure ⟨_, rfl, .declare htype hdeclares⟩
    next =>
      refine ensures_bind (answers_expression ctx (first :: rest)) ?_
      rintro _ ⟨e, rfl, hderives⟩
      exact ensures_pure ⟨_, rfl, .evaluate hderives⟩

theorem answers_optionalExpression (ctx : ParseContext) (tokens : List Token) :
    Answers (optionalExpression ctx tokens) fun r =>
      ∃ e?, r = some e? ∧ Stmt.Maybe AnyContent tokens e? := by
  unfold optionalExpression
  split
  next hempty =>
    obtain rfl := List.isEmpty_iff.1 hempty
    exact ensures_pure ⟨none, rfl, .none⟩
  next =>
    refine ensures_bind (answers_expression ctx tokens) ?_
    rintro _ ⟨e, rfl, hderives⟩
    exact ensures_pure ⟨some e, rfl, .some hderives⟩

theorem answers_forHeader (ctx : ParseContext) (init cond step : List Token) :
    Answers (forHeader ctx init cond step) fun r => ∃ start cond? step?,
      r = some (start, cond?, step?) ∧ Stmt.Starts AnyContent ctx.function init start
        ∧ Stmt.Maybe AnyContent cond cond? ∧ Stmt.Maybe AnyContent step step? := by
  refine ensures_bind (answers_forStart ctx init) ?_
  rintro _ ⟨start, rfl, hstart⟩
  refine ensures_bind (answers_optionalExpression ctx cond) ?_
  rintro _ ⟨cond?, rfl, hcond⟩
  refine ensures_bind (answers_optionalExpression ctx step) ?_
  rintro _ ⟨step?, rfl, hstep⟩
  exact ensures_pure ⟨start, cond?, step?, rfl, hstart, hcond, hstep⟩

/-! ## Statements -/

/-- What the readers with some fuel take off the front writes what they answer. -/
structure WritingReaders (fuel : Nat) : Prop where
  statements : ∀ (ctx : ParseContext) (tokens : List Token), 4 * tokens.length + 1 ≤ fuel →
    Answers (statements ctx fuel tokens) fun ss =>
      Writes AnyContent ctx.function tokens (.block ss)
  statement : ∀ (ctx : ParseContext) (t : Token) (rest : List Token),
    4 * rest.length + 4 ≤ fuel → Answers (statement ctx fuel (t :: rest)) fun r =>
      Taken ctx.function (t :: rest) (.one · r.1) r.2
  branchBody : ∀ (ctx : ParseContext) (word : Token) (tokens : List Token),
    4 * tokens.length + 1 ≤ fuel → Answers (branchBody ctx fuel word tokens) fun r =>
      Taken ctx.function tokens (.one · r.1) r.2
  branch : ∀ (ctx : ParseContext) (word : Token) (tokens : List Token),
    4 * tokens.length + 2 ≤ fuel → Answers (branch ctx fuel word tokens) fun r =>
      ∃ c body more, r.1 = some (c, body, more)
        ∧ Taken ctx.function tokens (.branch · c body more) r.2
  doLoop : ∀ (ctx : ParseContext) (word : Token) (tokens : List Token), word.kind = .doWord →
    4 * tokens.length + 2 ≤ fuel →
    TakesOne ctx.function (word :: tokens) (doLoop ctx fuel word tokens)
  whileLoop : ∀ (ctx : ParseContext) (word : Token) (tokens : List Token),
    word.kind = .whileWord → 4 * tokens.length + 2 ≤ fuel →
    TakesOne ctx.function (word :: tokens) (whileLoop ctx fuel word tokens)
  forLoop : ∀ (ctx : ParseContext) (word : Token) (tokens : List Token), word.kind = .forWord →
    4 * tokens.length + 2 ≤ fuel →
    TakesOne ctx.function (word :: tokens) (forLoop ctx fuel word tokens)

namespace WritingReaders

variable {fuel : Nat} (ih : WritingReaders fuel) (ctx : ParseContext) (word : Token)
  (tokens : List Token)

include ih

theorem next_statements (hfuel : 4 * tokens.length + 1 ≤ fuel + 1) :
    Answers (Parsing.statements ctx (fuel + 1) tokens) fun ss =>
      Writes AnyContent ctx.function tokens (.block ss) := by
  cases tokens with
  | nil =>
    unfold Parsing.statements
    exact ensures_pure .nil
  | cons t tokens =>
    unfold Parsing.statements
    simp only [List.length_cons] at hfuel
    refine ensures_bind (ih.statement ctx t tokens (by omega)) ?_
    rintro ⟨first, rest⟩ ⟨used, htokens, hfirst⟩
    have hlen := congrArg List.length htokens
    have hne := List.length_pos_iff.2 hfirst.one_ne_nil
    simp only [List.length_cons, List.length_append] at hlen
    refine ensures_bind (ih.statements ctx rest (by omega)) fun more hmore => ?_
    rw [htokens]
    exact ensures_pure (.cons hfirst hmore)

/-- A block whose closing brace is found, or else a report. -/
theorem block {opening : Token} (hopening : opening.kind = .leftBrace)
    (hfuel : 4 * tokens.length + 1 ≤ fuel) (cause : Cause) :
    Answers (do
        if !(braced tokens).2.2 then unterminated (braced tokens).1 opening cause
        return (← Parsing.statements (.ofTokens ctx.function (braced tokens).1) fuel (braced tokens).1,
          (braced tokens).2.1)) fun r =>
      Taken ctx.function (opening :: tokens) (.one · r.1) r.2 := by
  rcases hcut : braced tokens with ⟨inner, rest, closed⟩
  cases closed with
  | false => exact ensures_bind (answers_unterminated _ _ _) fun _ h => h.elim
  | true =>
    obtain ⟨closing, hclosing, rfl⟩ := segment_closed hcut
    simp only [List.length_append, List.length_cons] at hfuel
    refine ensures_bind (ih.statements (.ofTokens ctx.function inner) inner (by omega)) ?_
    intro ss hss
    exact ensures_pure ⟨opening :: (inner ++ [closing]), by simp,
      .braces hopening hclosing hss⟩

theorem next_statement (hfuel : 4 * tokens.length + 4 ≤ fuel + 1) :
    Answers (Parsing.statement ctx (fuel + 1) (word :: tokens)) fun r =>
      Taken ctx.function (word :: tokens) (.one · r.1) r.2 := by
  unfold Parsing.statement
  split
  next htype =>
    refine ensures_bind (answers_variable ctx word tokens) ?_
    rintro ⟨_, rest⟩ ⟨d, rfl, ts, semicolon, hkind, rfl, hdeclares⟩
    exact ensures_pure ⟨word :: (ts ++ [semicolon]), by simp, .declare htype hkind hdeclares⟩
  next hif =>
    refine ensures_bind (answers_freshName ctx "if") fun name _ => ?_
    refine ensures_bind (ih.branch ctx word tokens (by omega)) ?_
    rintro ⟨_, rest⟩ ⟨c, body, more, rfl, used, rfl, hwrites⟩
    exact ensures_pure ⟨word :: used, rfl, .ifElse hif hwrites⟩
  next hdo => exact takesOne_toList (ih.doLoop ctx word tokens hdo (by omega))
  next hwhile => exact takesOne_toList (ih.whileLoop ctx word tokens hwhile (by omega))
  next hfor => exact takesOne_toList (ih.forLoop ctx word tokens hfor (by omega))
  next hreturn => exact takesOne_toList (takesOne_return ctx hreturn tokens)
  next hbrace => exact ih.block ctx tokens hbrace (by omega) _
  next hsemicolon => exact ensures_pure ⟨[word], rfl, .empty hsemicolon⟩
  next => exact ensures_report_bind
  next => exact ensures_report_bind
  next => exact ensures_report_bind
  next hsemicolon _ _ _ => exact takesOne_toList (takesOne_exprStatement ctx hsemicolon)

theorem next_branchBody (hfuel : 4 * tokens.length + 1 ≤ fuel + 1) :
    Answers (Parsing.branchBody ctx (fuel + 1) word tokens) fun r =>
      Taken ctx.function tokens (.one · r.1) r.2 := by
  unfold Parsing.branchBody
  cases tokens with
  | nil => exact ensures_report_bind
  | cons t rest =>
    simp only [List.length_cons] at hfuel
    dsimp only
    split
    next hbrace => exact ih.block ctx rest hbrace (by omega) _
    next => exact ih.statement ctx t rest (by omega)

theorem next_branch (hfuel : 4 * tokens.length + 2 ≤ fuel + 1) :
    Answers (Parsing.branch ctx (fuel + 1) word tokens) fun r =>
      ∃ c body more, r.1 = some (c, body, more)
        ∧ Taken ctx.function tokens (.branch · c body more) r.2 := by
  unfold Parsing.branch
  refine ensures_bind (answers_condition ctx word tokens) ?_
  rintro ⟨_, behind⟩ ⟨c, rfl, opening, cs, closing, hopening, hclosing, rfl, hc⟩
  simp only [List.length_cons, List.length_append] at hfuel
  refine ensures_bind (ih.branchBody ctx word behind (by omega)) ?_
  rintro ⟨body, rest⟩ ⟨ts, rfl, hbody⟩
  simp only [List.length_append] at hfuel
  dsimp only at hbody ⊢
  split
  -- without an else behind the body the branch is the last one
  next hnone =>
    refine ensures_pure ⟨c, body, .none, rfl, opening :: (cs ++ closing :: ts), by simp, ?_⟩
    exact .only hopening hclosing (nextKind_ne_of_accept_none hnone) hc hbody
  next elseToken rest haccept =>
    obtain ⟨helse, rfl⟩ := accept_eq_some haccept
    rw [nextKind_cons, helse] at hbody
    simp only [List.length_cons] at hfuel
    refine ensures_bind (answers_freshName ctx "else") fun name _ => ?_
    split
    -- an else with a condition behind it goes on with another branch
    next ifToken rest haccept =>
      obtain ⟨hif, rfl⟩ := accept_eq_some haccept
      simp only [List.length_cons] at hfuel
      refine ensures_bind (ih.branch ctx ifToken rest (by omega)) ?_
      rintro ⟨_, rest⟩ ⟨c', body', more, rfl, us, rfl, hmore⟩
      refine ensures_pure ⟨c, body, _, rfl,
        opening :: (cs ++ closing :: (ts ++ elseToken :: ifToken :: us)), by simp, ?_⟩
      exact .elseIf hopening hclosing helse hif hc hbody hmore
    next hif =>
      refine ensures_bind (ih.branchBody ctx elseToken rest (by omega)) ?_
      rintro ⟨other, rest⟩ ⟨us, rfl, hother⟩
      -- what follows a plain else does not start with an if
      have hnext : nextKind us ≠ some .ifWord := by
        have := nextKind_ne_of_accept_none hif
        rwa [nextKind_append hother.one_ne_nil] at this
      refine ensures_pure ⟨c, body, _, rfl,
        opening :: (cs ++ closing :: (ts ++ elseToken :: us)), by simp, ?_⟩
      exact .otherwise hopening hclosing helse hnext hc hbody hother

theorem next_doLoop (hword : word.kind = .doWord) (hfuel : 4 * tokens.length + 2 ≤ fuel + 1) :
    TakesOne ctx.function (word :: tokens) (Parsing.doLoop ctx (fuel + 1) word tokens) := by
  unfold Parsing.doLoop
  refine ensures_bind (answers_freshName ctx "do") fun name _ => ?_
  refine ensures_bind (ih.branchBody ctx word tokens (by omega)) ?_
  rintro ⟨body, behind⟩ ⟨ts, rfl, hbody⟩
  refine ensures_bind (answers_expect ctx .whileWord behind) ?_
  rintro _ ⟨whileToken, behind, rfl, hwhile, rfl⟩
  refine ensures_bind (answers_condition ctx whileToken behind) ?_
  rintro ⟨_, behind⟩ ⟨c, rfl, opening, cs, closing, hopening, hclosing, rfl, hc⟩
  refine ensures_bind (answers_expect ctx .semicolon behind) ?_
  rintro _ ⟨semicolon, rest, rfl, hsemicolon, rfl⟩
  dsimp only at hbody
  rw [nextKind_cons, hwhile] at hbody
  refine ensures_pure ⟨_, rfl,
    word :: (ts ++ whileToken :: opening :: (cs ++ [closing, semicolon])), by simp, ?_⟩
  exact .doLoop hword hwhile hopening hclosing hsemicolon hc hbody

theorem next_whileLoop (hword : word.kind = .whileWord)
    (hfuel : 4 * tokens.length + 2 ≤ fuel + 1) :
    TakesOne ctx.function (word :: tokens) (Parsing.whileLoop ctx (fuel + 1) word tokens) := by
  unfold Parsing.whileLoop
  refine ensures_bind (answers_freshName ctx "while") fun name _ => ?_
  refine ensures_bind (answers_condition ctx word tokens) ?_
  rintro ⟨_, behind⟩ ⟨c, rfl, opening, cs, closing, hopening, hclosing, rfl, hc⟩
  simp only [List.length_cons, List.length_append] at hfuel
  refine ensures_bind (ih.branchBody ctx word behind (by omega)) ?_
  rintro ⟨body, rest⟩ ⟨ts, rfl, hbody⟩
  refine ensures_pure ⟨_, rfl, word :: opening :: (cs ++ closing :: ts), by simp, ?_⟩
  exact .whileLoop hword hopening hclosing hc hbody

theorem next_forLoop (hword : word.kind = .forWord) (hfuel : 4 * tokens.length + 2 ≤ fuel + 1) :
    TakesOne ctx.function (word :: tokens) (Parsing.forLoop ctx (fuel + 1) word tokens) := by
  unfold Parsing.forLoop
  refine ensures_bind (answers_freshName ctx "for") fun name _ => ?_
  refine ensures_bind (answers_expect ctx .leftParen tokens) ?_
  rintro _ ⟨opening, inside, rfl, hopening, rfl⟩
  dsimp only
  rcases hcut : parenthesised inside with ⟨header, behind, closed⟩
  cases closed with
  -- a header that is not closed is reported
  | false => exact ensures_bind (answers_unterminated _ _ _) fun _ h => h.elim
  | true =>
    obtain ⟨closing, hclosing, rfl⟩ := segment_closed hcut
    simp only [List.length_cons, List.length_append] at hfuel
    dsimp only [Bool.not_true]
    split
    next h => cases h
    next =>
      split
      next init cond step hsplit =>
        -- the three parts are the header with two semicolons between them
        obtain ⟨init', parts, more, hsplit', rfl, hjoined⟩ := splitTop_joined .semicolon 0 header
        obtain ⟨rfl, rfl⟩ := List.cons.inj (hsplit.symm.trans hsplit')
        obtain ⟨first, _, hfirst, rfl, second, _, hsecond, rfl, rfl⟩ := hjoined
        refine ensures_bind (answers_forHeader ctx init cond step) ?_
        rintro _ ⟨start, cond?, step?, rfl, hstart, hcond, hstep⟩
        refine ensures_bind (ih.branchBody ctx word behind (by omega)) ?_
        rintro ⟨body, rest⟩ ⟨ts, rfl, hbody⟩
        refine ensures_pure ⟨_, rfl,
          word :: opening :: (init ++ first :: (cond ++ second :: step) ++ closing :: ts),
          by simp, ?_⟩
        exact .forLoop hword hopening hfirst hsecond hclosing hstart hcond hstep hbody
      next => exact ensures_report_bind

end WritingReaders

theorem writingReaders (fuel : Nat) : WritingReaders fuel := by
  induction fuel with
  | zero => constructor <;> intros <;> omega
  | succ fuel ih =>
    exact {
      statements := ih.next_statements
      statement := ih.next_statement
      branchBody := ih.next_branchBody
      branch := ih.next_branch
      doLoop := ih.next_doLoop
      whileLoop := ih.next_whileLoop
      forLoop := ih.next_forLoop }

/-! ## Units -/

/-- The two tokens of a parameter. -/
def IsParam (part : List Token) (p : Param) : Prop :=
  ∃ type name, part = [type, name] ∧ type.kind = .typeName ∧ name.kind = .text
    ∧ isIdentifier name.text = true ∧ VarType.ofName type.text ≠ .void
    ∧ p = ⟨name, VarType.ofName type.text, name.text⟩

theorem answers_parameters (word name : Token) (parts : List (List Token)) :
    Answers (parameters word name parts) fun r =>
      ∃ params, r = some params ∧ List.Forall₂ IsParam parts params := by
  induction parts with
  | nil => exact ensures_pure ⟨[], rfl, .nil⟩
  | cons part parts ih =>
    unfold parameters
    split
    next type param =>
      split
      next => exact ensures_report_bind
      next hshape =>
        simp only [ne_eq, decide_not, Bool.or_eq_true, Bool.not_eq_true', not_or,
          decide_eq_false_iff_not, Decidable.not_not, Bool.not_eq_false] at hshape
        obtain ⟨⟨htype, hparam⟩, hident⟩ := hshape
        dsimp only
        split
        next => exact ensures_report_bind
        next hvoid =>
          refine ensures_bind ih ?_
          rintro _ ⟨params, rfl, hparams⟩
          refine ensures_pure ⟨_, rfl, .cons ?_ hparams⟩
          exact ⟨type, param, rfl, htype, hparam, hident, hvoid, rfl⟩
    next => exact ensures_report_bind

theorem writesParams_of_joined {part rest : List Token} {parts : List (List Token)}
    {params : List Param} (h : List.Forall₂ IsParam (part :: parts) params)
    (hjoined : Joined .comma parts rest) : WritesParams (part ++ rest) params := by
  induction parts generalizing part rest params with
  | nil =>
    obtain rfl : rest = [] := hjoined
    obtain _ | ⟨⟨type, name, rfl, htype, hname, hident, hvoid, rfl⟩, _ | _⟩ := h
    exact .last htype hname hident hvoid
  | cons next parts ih =>
    obtain ⟨comma, rest, hcomma, rfl, hjoined⟩ := hjoined
    obtain _ | ⟨⟨type, name, rfl, htype, hname, hident, hvoid, rfl⟩, hparams⟩ := h
    exact .cons htype hname hident hvoid hcomma (ih hparams hjoined)

theorem answers_returnType (ctx : ParseContext) (tokens : List Token) :
    Answers (returnType ctx tokens) fun r => ∃ type ts, r.1 = some type
      ∧ tokens = ts ++ r.2 ∧ WritesResult ts type := by
  unfold returnType
  split
  next => exact ensures_pure ⟨.void, [], rfl, rfl, .nothing⟩
  next sign rest haccept =>
    obtain ⟨hsign, rfl⟩ := accept_eq_some haccept
    refine ensures_bind (answers_expect ctx .typeName rest) ?_
    rintro _ ⟨type, rest, rfl, htype, rfl⟩
    exact ensures_pure ⟨_, [sign, type], rfl, rfl, .type hsign htype⟩

theorem answers_functionEnd (ctx : ParseContext) {announced : FuncDecl}
    (hannounced : announced.body? = none) (tokens : List Token) :
    Answers (functionEnd ctx announced tokens) fun r => ∃ body? bs,
      r.1 = some { announced with body? } ∧ tokens = bs ++ r.2
        ∧ WritesBody AnyContent announced.name bs body? := by
  unfold functionEnd
  split
  -- an announcement ends with its semicolon
  next semicolon rest haccept =>
    obtain ⟨hsemicolon, rfl⟩ := accept_eq_some haccept
    exact ensures_pure ⟨none, [semicolon], by rw [← hannounced], rfl, .none hsemicolon⟩
  next =>
    refine ensures_bind (answers_expect ctx .leftBrace tokens) ?_
    rintro _ ⟨opening, behind, rfl, hopening, rfl⟩
    dsimp only
    rcases hcut : braced behind with ⟨inner, rest, closed⟩
    cases closed with
    | false => exact ensures_bind (answers_unterminated _ _ _) fun _ h => h.elim
    | true =>
      obtain ⟨closing, hclosing, rfl⟩ := segment_closed hcut
      -- the fuel for the whole is enough for what stands between the braces
      have hfuel : 4 * inner.length + 1 ≤ 8 * inner.length + 8 := by omega
      refine ensures_bind ((writingReaders _).statements _ inner hfuel) fun ss hss => ?_
      exact ensures_pure ⟨some ss, opening :: (inner ++ [closing]), rfl, by simp,
        .some hopening hclosing hss⟩

theorem answers_function (ctx : ParseContext) {word : Token} (hword : word.kind = .define)
    (tokens : List Token) :
    Answers (function ctx word tokens) fun r => ∃ f ts, r.1 = some f
      ∧ word :: tokens = ts ++ r.2 ∧ WritesDecl AnyContent ts (.function f) := by
  unfold function
  split
  next => exact ensures_report_bind
  next name tokens haccept =>
    obtain ⟨hname, rfl⟩ := accept_eq_some haccept
    split
    next => exact ensures_report_bind
    next hident =>
      refine ensures_bind (answers_expect ctx .leftParen tokens) ?_
      rintro _ ⟨opening, inside, rfl, hopening, rfl⟩
      dsimp only
      rcases hcut : parenthesised inside with ⟨ps, behind, closed⟩
      cases closed with
      | false => exact ensures_bind (answers_unterminated _ _ _) fun _ h => h.elim
      | true =>
        obtain ⟨closing, hclosing, rfl⟩ := segment_closed hcut
        -- Behind the parameters it goes on in one way, however they are read.
        have htail (params : List Param) (hps : ps = [] ∧ params = [] ∨ WritesParams ps params) :
            Answers (do
                if maxParameters < params.length then report word (.tooManyParameters name.text)
                functionTail ctx word name params behind) fun r => ∃ f ts, r.1 = some f
              ∧ word :: name :: opening :: (ps ++ closing :: behind) = ts ++ r.2
              ∧ WritesDecl AnyContent ts (.function f) := by
          split
          next => exact ensures_report_bind
          next hcount =>
            refine ensures_bind (answers_returnType ctx behind) ?_
            rintro ⟨_, behind⟩ ⟨type, rs, rfl, rfl, htype⟩
            refine (answers_functionEnd ctx rfl behind).mono ?_
            rintro ⟨_, rest⟩ ⟨body?, bs, rfl, rfl, hbody⟩
            refine ⟨_, word :: name :: opening :: (ps ++ closing :: (rs ++ bs)), rfl, by simp, ?_⟩
            exact .function hword hname (by simpa using hident) hopening hclosing hps
              (by simpa [maxParameters] using hcount) htype hbody
        dsimp only [Bool.not_true]
        split
        next h => cases h
        next =>
          split
          next hempty =>
            refine ensures_bind (ensures_pure (Q := fun r => r = some []) rfl) ?_
            rintro _ rfl
            exact htail [] (.inl ⟨List.isEmpty_iff.1 hempty, rfl⟩)
          next =>
            obtain ⟨part, parts, rest, hsplit, rfl, hjoined⟩ := splitTop_joined .comma 0 ps
            rw [hsplit]
            refine ensures_bind (answers_parameters word name (part :: parts)) ?_
            rintro _ ⟨params, rfl, hparams⟩
            exact htail params (.inr (writesParams_of_joined hparams hjoined))

theorem answers_declaration {ctx : ParseContext} (hctx : ctx.function = []) (t : Token)
    (rest : List Token) :
    Answers (declaration ctx t rest) fun r =>
      (t.kind = .semicolon ∧ r = (none, rest)) ∨
        ∃ d ts, r.1 = some d ∧ t :: rest = ts ++ r.2 ∧ ts ≠ [] ∧ WritesDecl AnyContent ts d := by
  unfold declaration
  split
  -- a function, a field or a variable, each written by the tokens that its reader takes
  next hdefine =>
    refine ensures_bind (answers_function ctx hdefine rest) ?_
    rintro ⟨_, rest⟩ ⟨f, ts, rfl, htokens, hwrites⟩
    exact ensures_pure (.inr ⟨_, ts, rfl, htokens, hwrites.ne_nil, hwrites⟩)
  next hfield =>
    refine ensures_bind (Q := fun r => ∃ d ts, r.1 = some d ∧ t :: rest = ts ++ r.2
      ∧ WritesDecl AnyContent ts (.field d)) ?_ ?_
    · refine ensures_bind (answers_expect ctx .typeName rest) ?_
      rintro _ ⟨type, behind, rfl, htype, rfl⟩
      refine ensures_bind (answers_declTail ctx type behind) ?_
      rintro ⟨_, rest⟩ ⟨parts, rfl, ts, semicolon, hkind, rfl, hdeclares⟩
      rw [hctx] at hdeclares
      exact ensures_pure ⟨_, t :: type :: (ts ++ [semicolon]), rfl, by simp,
        .field hfield htype hkind hdeclares⟩
    · rintro ⟨_, rest⟩ ⟨d, ts, rfl, htokens, hwrites⟩
      exact ensures_pure (.inr ⟨_, ts, rfl, htokens, hwrites.ne_nil, hwrites⟩)
  next htype =>
    refine ensures_bind (answers_variable ctx t rest) ?_
    rintro ⟨_, rest⟩ ⟨d, rfl, ts, semicolon, hkind, rfl, hdeclares⟩
    rw [hctx] at hdeclares
    exact ensures_pure (.inr ⟨_, t :: (ts ++ [semicolon]), rfl, by simp, by simp,
      .var htype hkind hdeclares⟩)
  -- a semicolon alone declares nothing
  next hsemicolon => exact ensures_pure (.inl ⟨hsemicolon, rfl⟩)
  all_goals exact ensures_report_bind

theorem answers_declarations {ctx : ParseContext} (hctx : ctx.function = []) (fuel : Nat)
    (tokens : List Token) (hfuel : tokens.length ≤ fuel) :
    Answers (declarations ctx fuel tokens) fun ds => WritesUnit AnyContent tokens ds := by
  induction fuel generalizing tokens with
  | zero =>
    obtain rfl := List.length_eq_zero_iff.1 (Nat.le_zero.1 hfuel)
    unfold declarations
    exact ensures_pure .nil
  | succ fuel ih =>
    cases tokens with
    | nil =>
      unfold declarations
      exact ensures_pure .nil
    | cons t rest =>
      unfold declarations
      refine ensures_bind (answers_declaration hctx t rest) ?_
      simp only [List.length_cons] at hfuel
      rintro ⟨_, rest'⟩ (⟨hsemicolon, heq⟩ | ⟨d, ts, rfl, htokens, hne, hwrites⟩)
      · cases heq
        refine ensures_bind (ih rest (by omega)) fun ds hds => ensures_pure ?_
        exact .empty hsemicolon hds
      · have hlen := congrArg List.length htokens
        have hpos := List.length_pos_iff.2 hne
        simp only [List.length_cons, List.length_append] at hlen
        refine ensures_bind (ih rest' (by omega)) fun ds hds => ensures_pure ?_
        rw [htokens]
        exact .cons hwrites hds

/-- A unit that is read without a report is what its tokens write. -/
theorem writesUnit_of_clean {tokens : List Token} {ds : List Decl} {s : ParseState}
    (h : Clean (program tokens) {} ds s) : WritesUnit AnyContent tokens ds := by
  have hanswers := @answers_declarations (.ofTokens [] tokens) rfl _ tokens (Nat.le_refl _)
  exact (hanswers.of_clean rfl h).2

end Parsing

/-! ## Strings that are texts -/

open TickScript.Expr (AnyContent LooseString)

section

variable {fn : Text} {ts : List Token}

/-- A part of a list without loose strings has none. -/
theorem not_looseString_part {part ts : List Token} (h : ¬ LooseString ts) (before behind : List Token)
    (heq : before ++ part ++ behind = ts) : ¬ LooseString part :=
  fun hloose => h (hloose.mono ⟨before, behind, heq⟩)

theorem Stmt.Declares.strict {type : Token} {d : VarDecl} (h : Declares AnyContent fn type ts d)
    (hs : ¬ LooseString ts) : Declares (· = .text) fn type ts d := by
  cases h with
  | plain hvoid hkind hname => exact .plain hvoid hkind hname
  | @initial name sign ts e hvoid hkind hname hsign hderives =>
    exact .initial hvoid hkind hname hsign
      (hderives.strict (not_looseString_part hs [name, sign] [] (by simp)))

theorem Stmt.Maybe.strict {e? : Option Expr} (h : Maybe AnyContent ts e?) (hs : ¬ LooseString ts) :
    Maybe (· = .text) ts e? := by
  cases h with
  | none => exact .none
  | some hderives => exact .some (hderives.strict hs)

theorem Stmt.Starts.strict {start : LoopStart} (h : Starts AnyContent fn ts start)
    (hs : ¬ LooseString ts) : Starts (· = .text) fn ts start := by
  cases h with
  | nothing => exact .nothing
  | @declare type ts d htype hdeclares =>
    exact .declare htype (hdeclares.strict (not_looseString_part hs [type] [] (by simp)))
  | evaluate hderives => exact .evaluate (hderives.strict hs)

theorem Stmt.Writes.strict {form : Form} (h : Writes AnyContent fn ts form)
    (hs : ¬ LooseString ts) : Writes (· = .text) fn ts form := by
  -- each rule puts parts together, and parts of tokens without a loose string have none
  induction h with
  | nil => exact .nil
  | @cons ts rest ss more _ _ ih ih' =>
    exact .cons (ih (not_looseString_part hs [] rest (by simp)))
      (ih' (not_looseString_part hs ts [] (by simp)))
  | @declare type semicolon ts d next htype hsemicolon hdeclares =>
    exact .declare htype hsemicolon
      (hdeclares.strict (not_looseString_part hs [type] [semicolon] (by simp)))
  | @effect start semicolon ts e name next hstart hsemicolon hderives =>
    exact .effect hstart hsemicolon
      (hderives.strict (not_looseString_part hs [] [semicolon] (by simp)))
  | @return_ word semicolon ts e? name next hword hsemicolon hmaybe =>
    exact .return_ hword hsemicolon
      (hmaybe.strict (not_looseString_part hs [word] [semicolon] (by simp)))
  | empty hsemicolon => exact .empty hsemicolon
  | @braces opening closing ts ss next ho hc _ ih =>
    exact .braces ho hc (ih (not_looseString_part hs [opening] [closing] (by simp)))
  | @ifElse word ts condition body rest name next hword _ ih =>
    exact .ifElse hword (ih (not_looseString_part hs [word] [] (by simp)))
  | @whileLoop word opening closing c ts condition body name next hword ho hc hderives _ ih =>
    exact .whileLoop hword ho hc
      (hderives.strict (not_looseString_part hs [word, opening] (closing :: ts) (by simp)))
      (ih (not_looseString_part hs (word :: opening :: (c ++ [closing])) [] (by simp)))
  | @doLoop word whileWord opening closing semicolon c ts condition body name next hword hwhile ho hc
      hsemicolon hderives _ ih =>
    exact .doLoop hword hwhile ho hc hsemicolon
      (hderives.strict (not_looseString_part hs (word :: (ts ++ [whileWord, opening]))
        [closing, semicolon] (by simp)))
      (ih (not_looseString_part hs [word] (whileWord :: opening :: (c ++ [closing, semicolon]))
        (by simp)))
  -- the parts of the header stand between the semicolons
  | @forLoop word opening first second closing init c step ts start condition? step? body name next
      hword ho hfirst hsecond hc hstart hcondition hstep _ ih =>
    exact .forLoop hword ho hfirst hsecond hc
      (hstart.strict (not_looseString_part hs [word, opening]
        (first :: (c ++ second :: step) ++ closing :: ts) (by simp)))
      (hcondition.strict (not_looseString_part hs (word :: opening :: (init ++ [first]))
        (second :: step ++ closing :: ts) (by simp)))
      (hstep.strict (not_looseString_part hs (word :: opening :: (init ++ first :: (c ++ [second])))
        (closing :: ts) (by simp)))
      (ih (not_looseString_part hs
        (word :: opening :: (init ++ first :: (c ++ second :: step) ++ [closing])) [] (by simp)))
  | @only opening closing c ts condition body next ho hc hnext hderives _ ih =>
    exact .only ho hc hnext
      (hderives.strict (not_looseString_part hs [opening] (closing :: ts) (by simp)))
      (ih (not_looseString_part hs (opening :: (c ++ [closing])) [] (by simp)))
  | @otherwise opening closing elseWord c ts us condition body other name next ho hc helse hif hderives
      _ _ ih ih' =>
    exact .otherwise ho hc helse hif
      (hderives.strict (not_looseString_part hs [opening] (closing :: (ts ++ elseWord :: us))
        (by simp)))
      (ih (not_looseString_part hs (opening :: (c ++ [closing])) (elseWord :: us) (by simp)))
      (ih' (not_looseString_part hs (opening :: (c ++ closing :: (ts ++ [elseWord]))) []
        (by simp)))
  -- the chain goes on behind the two words
  | @elseIf opening closing elseWord ifWord c ts us condition condition' body body' rest name next ho hc
      helse hif hderives _ _ ih ih' =>
    exact .elseIf ho hc helse hif
      (hderives.strict (not_looseString_part hs [opening] (closing :: (ts ++ elseWord :: ifWord :: us))
        (by simp)))
      (ih (not_looseString_part hs (opening :: (c ++ [closing])) (elseWord :: ifWord :: us)
        (by simp)))
      (ih' (not_looseString_part hs (opening :: (c ++ closing :: (ts ++ [elseWord, ifWord]))) []
        (by simp)))

theorem WritesDecl.strict {d : Decl} (h : WritesDecl AnyContent ts d) (hs : ¬ LooseString ts) :
    WritesDecl (· = .text) ts d := by
  cases h with
  | @var type semicolon ts d htype hsemicolon hdeclares =>
    exact .var htype hsemicolon
      (hdeclares.strict (not_looseString_part hs [type] [semicolon] (by simp)))
  | @field word type semicolon ts d hword htype hsemicolon hdeclares =>
    exact .field hword htype hsemicolon
      (hdeclares.strict (not_looseString_part hs [word, type] [semicolon] (by simp)))
  | @function word name opening closing ps rs bs params returnType body? hword hname hident ho hc hparams
      hcount hresult hbody =>
    refine .function hword hname hident ho hc hparams hcount hresult ?_
    cases hbody with
    | none hsemicolon => exact .none hsemicolon
    | @some lb rb ts ss ho' hc' hwrites =>
      exact .some ho' hc' (hwrites.strict (not_looseString_part hs
        (word :: name :: opening :: (ps ++ closing :: (rs ++ [lb]))) [rb] (by simp)))

/-- Without a loose string every string of a unit is a text. -/
theorem WritesUnit.strict {ds : List Decl} (h : WritesUnit AnyContent ts ds)
    (hs : ¬ LooseString ts) : WritesUnit (· = .text) ts ds := by
  induction h with
  | nil => exact .nil
  | @empty semicolon ts ds hsemicolon _ ih =>
    exact .empty hsemicolon (ih (not_looseString_part hs [semicolon] [] (by simp)))
  | @cons ts rest d ds hdecl _ ih =>
    exact .cons (hdecl.strict (not_looseString_part hs [] rest (by simp)))
      (ih (not_looseString_part hs ts [] (by simp)))

end

end TickScript
