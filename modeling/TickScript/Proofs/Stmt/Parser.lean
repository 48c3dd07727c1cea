import TickScript.Proofs.Stmt.Reading
import TickScript.Proofs.Stmt.Rendering

/-!
# What is written is read

Every writing of a unit is read without a report, as the program that it writes. Bodies, conditions
and statements are cut out before they are read, so the first thing is that cutting stops at the right
place: the tokens of an expression are balanced, those of statements have matching braces, and none
of them holds a semicolon or a brace that is not its own.

The proof is an induction on the writing. For each rule it has to be shown that the cuts which the
reader makes find the parts that the writer put there (`Passes`), and that reading the parts gives
what they write. `Passes` composes: a cut that goes past two stretches of tokens goes past both
together, with the nesting that each of them leaves unchanged.

Statements other than declarations have generated names, numbered by a counter of the reader, so
what is read is compared without them (`bare`).
-/

namespace TickScript

/-! ## Balanced tokens -/

/-- The kinds that no cutting looks at. -/
def TokenKind.isPlain (kind : TokenKind) : Bool :=
  kind ∉ [leftParen, rightParen, leftBracket, rightBracket, leftBrace, rightBrace, semicolon]

/-- Parentheses and brackets match, and there are no braces and semicolons. -/
inductive Balanced : List Token → Prop
  /-- No tokens. -/
  | nil : Balanced []
  /-- A token that is no bracket. -/
  | plain {t : Token} {ts : List Token} : t.kind.isPlain = true → Balanced ts → Balanced (t :: ts)
  /-- A pair of parentheses. -/
  | parens {opening closing : Token} {inner ts : List Token} : opening.kind = .leftParen →
      closing.kind = .rightParen → Balanced inner → Balanced ts →
      Balanced (opening :: (inner ++ closing :: ts))
  /-- A pair of square brackets. -/
  | brackets {opening closing : Token} {inner ts : List Token} : opening.kind = .leftBracket →
      closing.kind = .rightBracket → Balanced inner → Balanced ts →
      Balanced (opening :: (inner ++ closing :: ts))

namespace Balanced

variable {ts us : List Token} {t : Token}

theorem append (h : Balanced ts) (h' : Balanced us) : Balanced (ts ++ us) := by
  induction h with
  | nil => exact h'
  | plain ht _ ih => exact .plain ht ih
  | parens ho hc hinner _ _ ih =>
    rw [List.cons_append, List.append_assoc]
    exact .parens ho hc hinner ih
  | brackets ho hc hinner _ _ ih =>
    rw [List.cons_append, List.append_assoc]
    exact .brackets ho hc hinner ih

theorem one (h : t.kind.isPlain = true) : Balanced [t] := .plain h .nil

theorem snoc (h : Balanced ts) (ht : t.kind.isPlain = true) : Balanced (ts ++ [t]) :=
  h.append (.one ht)

end Balanced

namespace TokenKind

variable {kind : TokenKind}

theorem isPlain_of_word (h : kind.isOperandWord = Bool.true) : kind.isPlain = Bool.true := by
  cases kind <;> first | rfl | cases h

theorem isPlain_of_sign (h : kind.isSignOperator = Bool.true) : kind.isPlain = Bool.true := by
  cases kind <;> first | rfl | cases h

theorem isPlain_of_step (h : kind.isStepOperator = Bool.true) : kind.isPlain = Bool.true := by
  cases kind <;> first | rfl | cases h

theorem isPlain_of_assignment (h : kind.isAssignment = Bool.true) : kind.isPlain = Bool.true := by
  cases kind <;> first | rfl | cases h

theorem isPlain_of_stratum {n : Nat} (h : kind.stratum? = some n) : kind.isPlain = Bool.true := by
  cases kind <;> first | rfl | cases h

end TokenKind

theorem Expr.Argument.balanced {more : List Argument}
    (hseps : ∀ a ∈ more, a.separator.kind = .comma) (h : ∀ a ∈ more, Balanced a.tokens) :
    Balanced (spelled more) := by
  induction more with
  | nil => exact .nil
  | cons a more ih =>
    have hmore := ih (fun b hb => hseps b (by simp [hb])) (fun b hb => h b (by simp [hb]))
    exact .plain (by rw [hseps a (by simp)]; rfl) ((h a (by simp)).append hmore)

theorem Expr.Derives.balanced {n : Nat} {ts : List Token} {e : Expr}
    (h : Derives (· = .text) n ts e) : Balanced ts := by
  induction h with
  | number h => exact .one (by rw [h]; rfl)
  | ident h _ => exact .one (by rw [h]; rfl)
  | word h => exact .one (TokenKind.isPlain_of_word h)
  | emptyString ho hc => exact .plain (by rw [ho]; rfl) (.one (by rw [hc]; rfl))
  | string ho hb hc =>
    exact .plain (by rw [ho]; rfl) (.plain (by rw [hb]; rfl) (.one (by rw [hc]; rfl)))
  | paren ho hc _ ih => exact .parens ho hc ih .nil
  | stepAfter hop _ ih => exact ih.snoc (TokenKind.isPlain_of_step hop)
  | index ho hc _ _ iht ihs => exact iht.append (.brackets ho hc ihs .nil)
  | callEmpty ho hc _ _ ih => exact ih.append (.parens ho hc .nil .nil)
  | call ho hc _ _ _ hseps _ ih ihfirst ihmore =>
    exact ih.append (.parens ho hc (ihfirst.append (Argument.balanced hseps ihmore)) .nil)
  | sign hop _ ih => exact .plain (TokenKind.isPlain_of_sign hop) ih
  | stepBefore hop _ ih => exact .plain (TokenKind.isPlain_of_step hop) ih
  | binary hop _ _ ihl ihr => exact ihl.append (.plain (TokenKind.isPlain_of_stratum hop) ihr)
  | assign hop _ _ iht ihv => exact iht.append (.plain (TokenKind.isPlain_of_assignment hop) ihv)
  | lift _ ih => exact ih

namespace Stmt

variable {fn : Text} {ts : List Token}

theorem Maybe.balanced {e? : Option Expr} (h : Maybe (· = .text) ts e?) : Balanced ts := by
  cases h with
  | none => exact .nil
  | some h => exact h.balanced

theorem Declares.balanced {type : Token} {d : VarDecl} (h : Declares (· = .text) fn type ts d) :
    Balanced ts := by
  cases h with
  | plain _ hkind _ => exact .one (by rw [hkind]; rfl)
  | initial _ hkind _ hsign hderives =>
    exact .plain (by rw [hkind]; rfl) (.plain (by rw [hsign]; rfl) hderives.balanced)

theorem Starts.balanced {start : LoopStart} (h : Starts (· = .text) fn ts start) :
    Balanced ts := by
  cases h with
  | nothing => exact .nil
  | declare htype hdeclares => exact .plain (by rw [htype]; rfl) hdeclares.balanced
  | evaluate hderives => exact hderives.balanced

end Stmt

theorem WritesParams.balanced {ts : List Token} {params : List Param} (h : WritesParams ts params) :
    Balanced ts ∧ ts ≠ [] := by
  induction h with
  | last htype hname _ _ =>
    exact ⟨.plain (by rw [htype]; rfl) (.one (by rw [hname]; rfl)), by simp⟩
  | cons htype hname _ _ hcomma _ ih =>
    exact ⟨.plain (by rw [htype]; rfl) (.plain (by rw [hname]; rfl)
      (.plain (by rw [hcomma]; rfl) ih.1)), by simp⟩

theorem WritesBody.head {content : TokenKind → Prop} {fn : Text} {bs : List Token}
    {body? : Option (List Stmt)} (h : WritesBody content fn bs body?) (rest : List Token) :
    nextKind (bs ++ rest) ≠ Option.some .assign := by
  cases h with
  | none hsemicolon => simp [hsemicolon]
  | some ho _ _ => simp [ho]

namespace Parsing

open Stage
open TickScript.Expr (signToken)

/-! ## Cutting -/

/-- A cut goes past the tokens and stops where it would without them. -/
def Passes (opening? : Option TokenKind) (closing : TokenKind) (ts : List Token) : Prop :=
  ∀ depth rest, segment opening? closing depth (ts ++ rest)
    = (ts ++ (segment opening? closing depth rest).1, (segment opening? closing depth rest).2)

/-- The cut takes no notice of a kind. -/
def Ignores (opening? : Option TokenKind) (closing kind : TokenKind) : Prop :=
  kind ≠ closing ∧ opening? ≠ some kind

section

variable {opening? : Option TokenKind} {closing : TokenKind} {ts us : List Token}

theorem passes_nil : Passes opening? closing [] := fun _ _ => rfl

theorem Passes.append (h : Passes opening? closing ts) (h' : Passes opening? closing us) :
    Passes opening? closing (ts ++ us) := by
  intro depth rest
  rw [List.append_assoc, h, h', List.append_assoc]

theorem Passes.cons {t : Token} (ht : Ignores opening? closing t.kind)
    (h : Passes opening? closing ts) : Passes opening? closing (t :: ts) := by
  intro depth rest
  rw [List.cons_append, segment, if_neg (by simp [ht.1])]
  simp only [if_neg ht.2, if_neg ht.1, h depth rest]
  rfl

theorem Passes.nested {opening closing : TokenKind} {o c : Token} {inner : List Token}
    (hne : opening ≠ closing) (ho : o.kind = opening) (hc : c.kind = closing)
    (hinner : Passes (some opening) closing inner) (h : Passes (some opening) closing ts) :
    Passes (some opening) closing (o :: (inner ++ c :: ts)) := by
  intro depth rest
  have hback : segment (some opening) closing (depth + 1) (c :: (ts ++ rest))
      = (c :: (ts ++ (segment (some opening) closing depth rest).1),
        (segment (some opening) closing depth rest).2) := by
    rw [segment, if_neg (by simp)]
    simp only [hc, Option.some.injEq, if_neg hne, if_true, Nat.add_sub_cancel, h depth rest]
  rw [List.cons_append, List.append_assoc, List.cons_append, segment,
    if_neg (by simp [ho, hne])]
  simp only [ho, if_true, hinner (depth + 1), hback]
  simp

theorem Passes.cut {c : Token} {rest : List Token} (h : Passes opening? closing ts)
    (hc : c.kind = closing) : segment opening? closing 0 (ts ++ c :: rest) = (ts, rest, true) := by
  have hstop : segment opening? closing 0 (c :: rest) = ([], rest, true) := by
    rw [segment, if_pos (by simp [hc])]
  rw [h, hstop, List.append_nil]

end

/-- A cut goes past balanced tokens when it ignores what is plain and goes past what is in
parentheses. -/
theorem passes_of_balanced {opening? : Option TokenKind} {closing : TokenKind} {ts : List Token}
    (hplain : ∀ kind : TokenKind, kind.isPlain = true ∨ kind ∈ [.leftBracket, .rightBracket] →
      Ignores opening? closing kind)
    (hparens : ∀ {o c : Token} {inner ts : List Token}, o.kind = .leftParen → c.kind = .rightParen →
      Passes opening? closing inner → Passes opening? closing ts →
      Passes opening? closing (o :: (inner ++ c :: ts)))
    (h : Balanced ts) : Passes opening? closing ts := by
  induction h with
  | nil => exact passes_nil
  | plain ht _ ih => exact ih.cons (hplain _ (.inl ht))
  | parens ho hc _ _ ihinner ih => exact hparens ho hc ihinner ih
  | brackets ho hc _ _ ihinner ih =>
    have hopening := hplain .leftBracket (.inr (by decide))
    have hclosing := hplain .rightBracket (.inr (by decide))
    exact .cons (ho ▸ hopening) (ihinner.append (.cons (hc ▸ hclosing) ih))

theorem passes_parens {ts : List Token} (h : Balanced ts) :
    Passes (some .leftParen) .rightParen ts := by
  refine passes_of_balanced ?_ (.nested (by decide)) h
  intro kind hkind
  revert hkind
  cases kind <;> simp [Ignores, TokenKind.isPlain]

/-- A cut that does not look at parentheses. -/
theorem passes_flat {opening? : Option TokenKind} {closing : TokenKind} {ts : List Token}
    (hkinds : ∀ kind, kind ∉ [.leftBrace, .rightBrace, .semicolon] → Ignores opening? closing kind)
    (h : Balanced ts) : Passes opening? closing ts := by
  refine passes_of_balanced ?_ ?_ h
  · intro kind hkind
    refine hkinds kind ?_
    revert hkind
    cases kind <;> simp [TokenKind.isPlain]
  · intro o c inner ts ho hc hinner hts
    have hopening := hkinds .leftParen (by decide)
    have hclosing := hkinds .rightParen (by decide)
    exact .cons (ho ▸ hopening) (hinner.append (.cons (hc ▸ hclosing) hts))

theorem passes_semicolon {ts : List Token} (h : Balanced ts) : Passes none .semicolon ts := by
  refine passes_flat ?_ h
  intro kind hkind
  simp only [List.mem_cons, List.not_mem_nil, or_false, not_or] at hkind
  exact ⟨hkind.2.2, by simp⟩

theorem passes_braces {ts : List Token} (h : Balanced ts) :
    Passes (some .leftBrace) .rightBrace ts := by
  refine passes_flat ?_ h
  intro kind hkind
  simp only [List.mem_cons, List.not_mem_nil, or_false, not_or] at hkind
  exact ⟨hkind.2.1, fun heq => hkind.1 (Option.some.inj heq).symm⟩

/-- Splitting keeps the tokens together. -/
def Keeps (ts : List Token) : Prop :=
  ∀ depth rest, splitTop .semicolon depth (ts ++ rest)
    = ts.foldr prepend (splitTop .semicolon depth rest)

theorem splitTop_plain {t : Token} (ht : t.kind.isPlain = true) (depth : Int)
    (rest : List Token) :
    splitTop .semicolon depth (t :: rest) = prepend t (splitTop .semicolon depth rest) := by
  rw [splitTop]
  revert ht
  cases hkind : t.kind <;> intro ht <;> first | rfl | cases ht

theorem splitTop_opening {t : Token} (ht : t.kind ∈ [.leftParen, .leftBracket]) (depth : Int)
    (rest : List Token) :
    splitTop .semicolon depth (t :: rest) = prepend t (splitTop .semicolon (depth + 1) rest) := by
  simp only [List.mem_cons, List.not_mem_nil, or_false] at ht
  rcases ht with ht | ht <;> rw [splitTop, ht] <;> rfl

theorem splitTop_closing {t : Token} (ht : t.kind ∈ [.rightParen, .rightBracket]) (depth : Int)
    (rest : List Token) :
    splitTop .semicolon (depth + 1) (t :: rest) = prepend t (splitTop .semicolon depth rest) := by
  have hdepth : depth + 1 - 1 = depth := by omega
  simp only [List.mem_cons, List.not_mem_nil, or_false] at ht
  rcases ht with ht | ht <;> rw [splitTop, ht] <;> dsimp only <;> rw [hdepth] <;> rfl

theorem keeps_of_balanced {ts : List Token} (h : Balanced ts) : Keeps ts := by
  have hnested {o c : Token} {inner ts : List Token} (ho : o.kind ∈ [.leftParen, .leftBracket])
      (hc : c.kind ∈ [.rightParen, .rightBracket]) (hinner : Keeps inner) (hts : Keeps ts) :
      Keeps (o :: (inner ++ c :: ts)) := by
    intro depth rest
    rw [List.cons_append, splitTop_opening ho, List.append_assoc, hinner, List.cons_append,
      splitTop_closing hc, hts, List.foldr_cons, List.foldr_append, List.foldr_cons]
  induction h with
  | nil => exact fun _ _ => rfl
  | plain ht _ ih =>
    intro depth rest
    rw [List.cons_append, splitTop_plain ht, ih, List.foldr_cons]
  | parens ho hc _ _ ihinner ih => exact hnested (by rw [ho]; decide) (by rw [hc]; decide) ihinner ih
  | brackets ho hc _ _ ihinner ih =>
    exact hnested (by rw [ho]; decide) (by rw [hc]; decide) ihinner ih

theorem foldr_prepend (ts part : List Token) (parts : List (List Token)) :
    ts.foldr prepend (part :: parts) = (ts ++ part) :: parts := by
  induction ts with
  | nil => rfl
  | cons t ts ih => rw [List.foldr_cons, ih]; rfl

theorem splitTop_separator {t : Token} (ht : t.kind = .semicolon) (rest : List Token) :
    splitTop .semicolon 0 (t :: rest) = [] :: splitTop .semicolon 0 rest := by
  rw [splitTop, ht]
  rfl

/-- The three parts of the header of a for loop. -/
theorem splitTop_header {init cond step : List Token} {first second : Token} (hinit : Balanced init)
    (hcond : Balanced cond) (hstep : Balanced step) (hfirst : first.kind = .semicolon)
    (hsecond : second.kind = .semicolon) :
    splitTop .semicolon 0 (init ++ first :: (cond ++ second :: step)) = [init, cond, step] := by
  have hlast : splitTop .semicolon 0 step = [step] := by
    have h := keeps_of_balanced hstep 0 []
    rw [List.append_nil, splitTop, foldr_prepend, List.append_nil] at h
    exact h
  rw [keeps_of_balanced hinit, splitTop_separator hfirst, keeps_of_balanced hcond,
    splitTop_separator hsecond, hlast, foldr_prepend, foldr_prepend, List.append_nil,
    List.append_nil]

/-! ## Clean runs -/

/-- From every state there is a clean run, and its answer satisfies a condition. -/
def Yields {α : Type} (x : Parsing α) (Q : α → Prop) : Prop :=
  ∀ s, ∃ a s', Clean x s a s' ∧ Q a

section

variable {α β : Type} {x : Parsing α} {Q R : α → Prop}

theorem yields_pure {a : α} (h : Q a) : Yields (pure a : Parsing α) Q :=
  fun s => ⟨a, s, rfl, h⟩

theorem yields_bind {f : α → Parsing β} {P : β → Prop} (hx : Yields x Q)
    (hf : ∀ a, Q a → Yields (f a) P) : Yields (x >>= f) P := by
  intro s
  obtain ⟨a, s₁, hclean, hQ⟩ := hx s
  obtain ⟨b, s', hrest, hP⟩ := hf a hQ s₁
  refine ⟨b, s', ?_, hP⟩
  rw [Clean, run_bind, hclean]
  exact hrest

end

theorem yields_freshName (ctx : ParseContext) (kind : String) :
    Yields (freshName ctx kind) fun _ => True :=
  fun _ => ⟨_, _, rfl, trivial⟩

theorem yields_expression (ctx : ParseContext) {ts : List Token} {e : Expr}
    (h : Expr.Derives (· = .text) 1 ts e) : Yields (expression ctx ts) (· = some e) := by
  have hparse : Expr.parse ts = .ok e :=
    Expr.parse_eq_ok_iff.2 (h.mono fun kind hkind => by simp [hkind])
  unfold expression
  rw [hparse]
  exact yields_pure rfl

theorem yields_expect (ctx : ParseContext) {t : Token} {kind : TokenKind} (ht : t.kind = kind)
    (rest : List Token) : Yields (expect ctx kind (t :: rest)) (· = some (t, rest)) := by
  unfold expect
  rw [accept, if_pos ht]
  exact yields_pure rfl

theorem yields_statementTokens (start : Token) {content rest : List Token} {semicolon : Token}
    (hcontent : Balanced content) (hsemicolon : semicolon.kind = .semicolon) :
    Yields (statementTokens start (content ++ semicolon :: rest)) (· = (some content, rest)) := by
  unfold statementTokens
  rw [(passes_semicolon hcontent).cut hsemicolon]
  exact yields_pure rfl

theorem yields_declParts {ctx : ParseContext} {type : Token} {content : List Token} {d : VarDecl}
    (h : Stmt.Declares (· = .text) ctx.function type content d) :
    Yields (declParts ctx type content) fun r =>
      ∃ parts, r = some parts ∧ varDecl ctx type parts.1 parts.2 = d := by
  unfold declParts
  cases h with
  | @plain name hvoid hkind hname =>
    rw [if_neg (by simpa using hvoid)]
    dsimp only
    rw [if_neg (by simp [hkind, hname])]
    exact yields_pure ⟨_, rfl, rfl⟩
  | @initial name sign ts e hvoid hkind hname hsign hderives =>
    rw [if_neg (by simpa using hvoid)]
    dsimp only
    rw [if_neg (by simp [hkind, hname]), if_neg (by simp [hsign]),
      if_neg (by simpa using hderives.ne_nil)]
    refine yields_bind (yields_expression ctx hderives) ?_
    rintro _ rfl
    exact yields_pure ⟨_, rfl, rfl⟩

theorem yields_declTail {ctx : ParseContext} {type semicolon : Token} {ts rest : List Token}
    {d : VarDecl} (h : Stmt.Declares (· = .text) ctx.function type ts d)
    (hsemicolon : semicolon.kind = .semicolon) :
    Yields (declTail ctx type (ts ++ semicolon :: rest)) fun r =>
      ∃ parts, r = (some parts, rest) ∧ varDecl ctx type parts.1 parts.2 = d := by
  refine yields_bind (yields_statementTokens type h.balanced hsemicolon) ?_
  rintro _ rfl
  refine yields_bind (yields_declParts h) ?_
  rintro _ ⟨parts, rfl, heq⟩
  exact yields_pure ⟨parts, rfl, heq⟩

theorem yields_variable {ctx : ParseContext} {type semicolon : Token} {ts rest : List Token}
    {d : VarDecl} (h : Stmt.Declares (· = .text) ctx.function type ts d)
    (hsemicolon : semicolon.kind = .semicolon) :
    Yields (variable_ ctx type (ts ++ semicolon :: rest)) (· = (some d, rest)) := by
  refine yields_bind (yields_declTail h hsemicolon) ?_
  rintro _ ⟨parts, rfl, rfl⟩
  exact yields_pure rfl

theorem yields_return {ctx : ParseContext} {word semicolon : Token} {ts rest : List Token}
    {e? : Option Expr} (h : Stmt.Maybe (· = .text) ts e?) (hsemicolon : semicolon.kind = .semicolon) :
    Yields (return_ ctx word (ts ++ semicolon :: rest)) fun r =>
      ∃ name, r = (some (.expr name word .return_ e?), rest) := by
  refine yields_bind (yields_statementTokens word h.balanced hsemicolon) ?_
  rintro _ rfl
  refine yields_bind (yields_freshName ctx "return") fun name _ => ?_
  cases h with
  | none => exact yields_pure ⟨name, rfl⟩
  | some hderives =>
    rw [if_neg (by simpa using hderives.ne_nil)]
    refine yields_bind (yields_expression ctx hderives) ?_
    rintro _ rfl
    exact yields_pure ⟨name, rfl⟩

theorem yields_exprStatement {ctx : ParseContext} {start semicolon : Token} {ts rest : List Token}
    {e : Expr} (h : Expr.Derives (· = .text) 1 ts e) (hsemicolon : semicolon.kind = .semicolon) :
    Yields (exprStatement ctx start (ts ++ semicolon :: rest)) fun r =>
      ∃ name, r = (some (.expr name start e.kind (some e)), rest) := by
  refine yields_bind (yields_statementTokens start h.balanced hsemicolon) ?_
  rintro _ rfl
  dsimp only
  rw [if_neg (by simpa using h.ne_nil)]
  refine yields_bind (yields_expression ctx h) ?_
  rintro _ rfl
  refine yields_bind (yields_freshName ctx "expr") fun name _ => ?_
  exact yields_pure ⟨name, rfl⟩

theorem yields_condition (ctx : ParseContext) (word : Token) {opening closing : Token}
    {c rest : List Token} {e : Expr} (hopening : opening.kind = .leftParen)
    (hclosing : closing.kind = .rightParen) (h : Expr.Derives (· = .text) 1 c e) :
    Yields (condition ctx word (opening :: (c ++ closing :: rest))) (· = (some e, rest)) := by
  refine yields_bind (yields_expect ctx hopening _) ?_
  rintro _ rfl
  dsimp only
  rw [parenthesised, (passes_parens h.balanced).cut hclosing]
  dsimp only
  rw [if_neg (by simp), if_neg (by simpa using h.ne_nil)]
  refine yields_bind (yields_expression ctx h) ?_
  rintro _ rfl
  exact yields_pure rfl

theorem yields_optionalExpression (ctx : ParseContext) {ts : List Token} {e? : Option Expr}
    (h : Stmt.Maybe (· = .text) ts e?) : Yields (optionalExpression ctx ts) (· = some e?) := by
  unfold optionalExpression
  cases h with
  | none => exact yields_pure rfl
  | some hderives =>
    rw [if_neg (by simpa using hderives.ne_nil)]
    refine yields_bind (yields_expression ctx hderives) ?_
    rintro _ rfl
    exact yields_pure rfl

theorem yields_forStart {ctx : ParseContext} {ts : List Token} {start : LoopStart}
    (h : Stmt.Starts (· = .text) ctx.function ts start) :
    Yields (forStart ctx ts) (· = some start) := by
  cases h with
  | nothing => exact yields_pure rfl
  | declare htype hdeclares =>
    rw [forStart, if_pos htype]
    refine yields_bind (yields_declParts hdeclares) ?_
    rintro _ ⟨parts, rfl, rfl⟩
    exact yields_pure rfl
  | evaluate hderives =>
    obtain ⟨first, rest, rfl, hkind⟩ := hderives.head
    have htype : first.kind ≠ .typeName := by
      intro htype
      rw [htype] at hkind
      cases hkind
    rw [forStart, if_neg htype]
    refine yields_bind (yields_expression ctx hderives) ?_
    rintro _ rfl
    exact yields_pure rfl

theorem yields_forHeader {ctx : ParseContext} {init cond step : List Token} {start : LoopStart}
    {cond? step? : Option Expr} (hstart : Stmt.Starts (· = .text) ctx.function init start)
    (hcond : Stmt.Maybe (· = .text) cond cond?) (hstep : Stmt.Maybe (· = .text) step step?) :
    Yields (forHeader ctx init cond step) (· = some (start, cond?, step?)) := by
  refine yields_bind (yields_forStart hstart) ?_
  rintro _ rfl
  refine yields_bind (yields_optionalExpression ctx hcond) ?_
  rintro _ rfl
  refine yields_bind (yields_optionalExpression ctx hstep) ?_
  rintro _ rfl
  exact yields_pure rfl

/-! ## Statements -/

theorem Passes.other {t : Token} {kind : TokenKind} {ts : List Token} (ht : t.kind = kind)
    (hkind : kind ≠ .leftBrace ∧ kind ≠ .rightBrace) (h : Passes (some .leftBrace) .rightBrace ts) :
    Passes (some .leftBrace) .rightBrace (t :: ts) :=
  h.cons ⟨by rw [ht]; exact hkind.2, by rw [ht]; exact fun heq => hkind.1 (Option.some.inj heq).symm⟩

/-- A cut by braces goes past what writes statements. -/
theorem passes_of_writes {fn : Text} {ts : List Token} {form : Stmt.Form}
    (h : Stmt.Writes (· = .text) fn ts form) : Passes (some .leftBrace) .rightBrace ts := by
  -- no brace of a statement closes the block around it: expressions have balanced braces, and every
  -- other brace of a statement has its partner inside
  induction h with
  | nil => exact passes_nil
  | cons _ _ ih ih' => exact ih.append ih'
  | declare htype hsemicolon hdeclares =>
    exact .other htype (by decide)
      ((passes_braces hdeclares.balanced).append (.other hsemicolon (by decide) passes_nil))
  | effect _ hsemicolon hderives =>
    exact (passes_braces hderives.balanced).append (.other hsemicolon (by decide) passes_nil)
  | return_ hword hsemicolon hmaybe =>
    exact .other hword (by decide)
      ((passes_braces hmaybe.balanced).append (.other hsemicolon (by decide) passes_nil))
  | empty hsemicolon => exact .other hsemicolon (by decide) passes_nil
  | braces ho hc _ ih => exact .nested (by decide) ho hc ih passes_nil
  | ifElse hword _ ih => exact .other hword (by decide) ih
  | whileLoop hword ho hc hderives _ ih =>
    exact .other hword (by decide) (.other ho (by decide)
      ((passes_braces hderives.balanced).append (.other hc (by decide) ih)))
  | doLoop hword hwhile ho hc hsemicolon hderives _ ih =>
    have hend := Passes.other hc (by decide) (.other hsemicolon (by decide) passes_nil)
    exact .other hword (by decide) (ih.append (.other hwhile (by decide) (.other ho (by decide)
      ((passes_braces hderives.balanced).append hend))))
  | forLoop hword ho hfirst hsecond hc hstart hcondition hstep _ ih =>
    have htests := (passes_braces hcondition.balanced).append
      (.other hsecond (by decide) (passes_braces hstep.balanced))
    have hheader := (passes_braces hstart.balanced).append (.other hfirst (by decide) htests)
    exact .other hword (by decide) (.other ho (by decide)
      (hheader.append (.other hc (by decide) ih)))
  | only ho hc _ hderives _ ih =>
    exact .other ho (by decide)
      ((passes_braces hderives.balanced).append (.other hc (by decide) ih))
  | otherwise ho hc helse _ hderives _ _ ih ih' =>
    exact .other ho (by decide) ((passes_braces hderives.balanced).append
      (.other hc (by decide) (ih.append (.other helse (by decide) ih'))))
  | elseIf ho hc helse hif hderives _ _ ih ih' =>
    exact .other ho (by decide) ((passes_braces hderives.balanced).append (.other hc (by decide)
      (ih.append (.other helse (by decide) (.other hif (by decide) ih')))))

/-- What a reader of statements answers: what was written, up to names, and what is behind it. -/
def Found (ss : List Stmt) (rest : List Token) (r : List Stmt × List Token) : Prop :=
  Stmt.allBare r.1 = Stmt.allBare ss ∧ r.2 = rest

/-- The tokens of a form are read as the form, in front of whatever it is written in front of. -/
def IsRead (fn : Text) (ts : List Token) : Stmt.Form → Prop
  | .block ss => ∀ (ctx : ParseContext) (fuel : Nat), ctx.function = fn → 4 * ts.length + 1 ≤ fuel →
      Yields (statements ctx fuel ts) fun ss' => Stmt.allBare ss' = Stmt.allBare ss
  | .one next ss => ∀ (ctx : ParseContext) (rest : List Token), ctx.function = fn →
      nextKind rest = next →
      (∀ fuel, 4 * (ts ++ rest).length ≤ fuel →
        Yields (statement ctx fuel (ts ++ rest)) (Found ss rest))
      ∧ ∀ fuel word, 4 * (ts ++ rest).length + 1 ≤ fuel →
        Yields (branchBody ctx fuel word (ts ++ rest)) (Found ss rest)
  | .branch next condition body more => ∀ (ctx : ParseContext) (word : Token) (rest : List Token)
      (fuel : Nat), ctx.function = fn → nextKind rest = next → 4 * (ts ++ rest).length + 2 ≤ fuel →
      Yields (branch ctx fuel word (ts ++ rest)) fun r => ∃ body' more',
        r = (some (condition, body', more'), rest) ∧ Stmt.allBare body' = Stmt.allBare body
          ∧ more'.bare = more.bare

section

variable {fn : Text} {next : Option TokenKind} {ts : List Token}

/-- A statement that does not start with a brace is read the same as a body. -/
theorem isRead_one {t : Token} {us : List Token} {ss : List Stmt} (ht : t.kind ≠ .leftBrace)
    (h : ∀ (ctx : ParseContext) (rest : List Token) (fuel : Nat), ctx.function = fn →
      nextKind rest = next → 4 * (us ++ rest).length + 3 ≤ fuel →
      Yields (statement ctx (fuel + 1) (t :: (us ++ rest))) (Found ss rest)) :
    IsRead fn (t :: us) (.one next ss) := by
  intro ctx rest hctx hnext
  have hstatement (fuel : Nat) (hfuel : 4 * (t :: us ++ rest).length ≤ fuel) :
      Yields (statement ctx fuel (t :: us ++ rest)) (Found ss rest) := by
    rw [List.cons_append, List.length_cons] at hfuel
    obtain ⟨fuel, rfl⟩ : ∃ k, fuel = k + 1 := ⟨fuel - 1, by omega⟩
    exact h ctx rest fuel hctx hnext (by omega)
  refine ⟨hstatement, ?_⟩
  intro fuel word hfuel
  obtain ⟨fuel, rfl⟩ : ∃ k, fuel = k + 1 := ⟨fuel - 1, by omega⟩
  rw [branchBody.eq_def]
  dsimp only [List.cons_append]
  rw [if_neg ht]
  exact hstatement fuel (by omega)

/-- A statement that a reader of its own answers. -/
theorem yields_toList {x : Parsing (Option Stmt × List Token)} {s : Stmt} {rest : List Token}
    (hx : Yields x fun r => ∃ s', r = (some s', rest) ∧ s'.bare = s.bare) :
    Yields (do let (stmt?, rest) ← x; return (stmt?.toList, rest)) (Found [s] rest) := by
  refine yields_bind hx ?_
  rintro _ ⟨s', rfl, hbare⟩
  refine yields_pure ⟨?_, rfl⟩
  simp only [Option.toList, Stmt.allBare, hbare]

theorem statements_succ {ctx : ParseContext} {fuel : Nat} {tokens : List Token} (h : tokens ≠ []) :
    statements ctx (fuel + 1) tokens = (do
      let (first, rest) ← statement ctx fuel tokens
      return first ++ (← statements ctx fuel rest)) := by
  rw [statements]
  exact h

theorem isRead_cons {rest : List Token} {ss more : List Stmt} (hne : ts ≠ [])
    (hfirst : IsRead fn ts (.one (nextKind rest) ss)) (hrest : IsRead fn rest (.block more)) :
    IsRead fn (ts ++ rest) (.block (ss ++ more)) := by
  intro ctx fuel hctx hfuel
  have hpos := List.length_pos_iff.2 hne
  rw [List.length_append] at hfuel
  obtain ⟨fuel, rfl⟩ : ∃ k, fuel = k + 1 := ⟨fuel - 1, by omega⟩
  rw [statements_succ (List.append_ne_nil_of_left_ne_nil hne rest)]
  refine yields_bind ((hfirst ctx rest hctx rfl).1 fuel (by rw [List.length_append]; omega)) ?_
  rintro ⟨ss', _⟩ ⟨hss, rfl⟩
  refine yields_bind (hrest ctx fuel hctx (by omega)) fun more' hmore => ?_
  refine yields_pure ?_
  rw [Stmt.allBare_append, Stmt.allBare_append, hmore]
  exact congrArg (· ++ _) hss

theorem isRead_braces {opening closing : Token} {ss : List Stmt} (ho : opening.kind = .leftBrace)
    (hc : closing.kind = .rightBrace) (hwrites : Stmt.Writes (· = .text) fn ts (.block ss))
    (h : IsRead fn ts (.block ss)) :
    IsRead fn (opening :: (ts ++ [closing])) (.one next ss) := by
  intro ctx rest hctx _
  -- the tokens between the braces are cut out first and then read by themselves
  have hcut : braced (ts ++ closing :: rest) = (ts, rest, true) := (passes_of_writes hwrites).cut hc
  have hinner (fuel : Nat) (hfuel : 4 * ts.length + 1 ≤ fuel) :
      Yields (do return (← statements (.ofTokens ctx.function ts) fuel ts, rest)) (Found ss rest) := by
    refine yields_bind (h (.ofTokens ctx.function ts) fuel hctx hfuel) fun ss' hss => ?_
    exact yields_pure ⟨hss, rfl⟩
  rw [List.cons_append, List.append_assoc, List.singleton_append]
  simp only [List.length_cons, List.length_append]
  constructor
  · -- as a statement of its own
    intro fuel hfuel
    obtain ⟨fuel, rfl⟩ : ∃ k, fuel = k + 1 := ⟨fuel - 1, by omega⟩
    rw [statement, ho]
    dsimp only
    rw [hcut]
    exact hinner fuel (by omega)
  · -- as the body of another statement
    intro fuel word hfuel
    obtain ⟨fuel, rfl⟩ : ∃ k, fuel = k + 1 := ⟨fuel - 1, by omega⟩
    rw [branchBody.eq_def]
    dsimp only
    rw [if_pos ho, hcut]
    exact hinner fuel (by omega)

theorem isRead_declare {type semicolon : Token} {d : VarDecl} (htype : type.kind = .typeName)
    (hsemicolon : semicolon.kind = .semicolon) (h : Stmt.Declares (· = .text) fn type ts d) :
    IsRead fn (type :: (ts ++ [semicolon])) (.one next [.declare d]) := by
  refine isRead_one (by rw [htype]; decide) ?_
  rintro ctx rest fuel rfl _ _
  rw [List.append_assoc, List.singleton_append, statement, htype]
  refine yields_bind (yields_variable h hsemicolon) ?_
  rintro _ rfl
  exact yields_pure ⟨rfl, rfl⟩

theorem isRead_return {word semicolon : Token} {e? : Option Expr} {name : Text}
    (hword : word.kind = .returnWord) (hsemicolon : semicolon.kind = .semicolon)
    (h : Stmt.Maybe (· = .text) ts e?) :
    IsRead fn (word :: (ts ++ [semicolon])) (.one next [.expr name word .return_ e?]) := by
  refine isRead_one (by rw [hword]; decide) ?_
  intro ctx rest fuel _ _ _
  rw [List.append_assoc, List.singleton_append, statement, hword]
  refine yields_toList fun s => ?_
  obtain ⟨_, s', hclean, name', rfl⟩ := yields_return h hsemicolon s
  exact ⟨_, s', hclean, _, rfl, rfl⟩

/-- A token that an operand starts with starts an expression statement. -/
theorem statement_operand (ctx : ParseContext) (fuel : Nat) {t : Token}
    (ht : t.kind.startsOperand = true) (rest : List Token) :
    statement ctx (fuel + 1) (t :: rest) = (do
      let (stmt?, rest) ← exprStatement ctx t (t :: rest)
      return (stmt?.toList, rest)) := by
  rw [statement]
  revert ht
  cases t.kind <;> intro ht <;> first | rfl | cases ht

theorem isRead_effect {start semicolon : Token} {e : Expr} {name : Text}
    (hstart : ts.head? = some start) (hsemicolon : semicolon.kind = .semicolon)
    (h : Expr.Derives (· = .text) 1 ts e) :
    IsRead fn (ts ++ [semicolon]) (.one next [.expr name start e.kind (some e)]) := by
  obtain ⟨t, us, rfl, ht⟩ := h.head
  obtain rfl : t = start := Option.some.inj hstart
  have hbrace : t.kind ≠ .leftBrace := by
    intro hbrace
    rw [hbrace] at ht
    cases ht
  rw [List.cons_append]
  refine isRead_one hbrace ?_
  intro ctx rest fuel _ _ _
  rw [statement_operand ctx fuel ht, List.append_assoc, List.singleton_append]
  refine yields_toList fun s => ?_
  obtain ⟨_, s', hclean, name', rfl⟩ := yields_exprStatement h hsemicolon s
  exact ⟨_, s', hclean, _, rfl, rfl⟩

theorem isRead_ifElse {word : Token} {condition : Expr} {body : List Stmt} {more : Alternatives}
    {name : Text} (hword : word.kind = .ifWord)
    (h : IsRead fn ts (.branch next condition body more)) :
    IsRead fn (word :: ts) (.one next [.ifElse name word condition body more]) := by
  refine isRead_one (by rw [hword]; decide) ?_
  intro ctx rest fuel hctx hnext hfuel
  rw [statement, hword]
  refine yields_bind (yields_freshName ctx "if") fun name' _ => ?_
  refine yields_bind (h ctx word rest fuel hctx hnext (by omega)) ?_
  rintro _ ⟨body', more', rfl, hbody, hmore⟩
  refine yields_pure ⟨?_, rfl⟩
  simp only [Option.map_some, Option.toList, Stmt.allBare, Stmt.bare, hbody, hmore]

theorem isRead_whileLoop {word opening closing : Token} {c : List Token} {condition : Expr}
    {body : List Stmt} {name : Text} (hword : word.kind = .whileWord)
    (ho : opening.kind = .leftParen) (hc : closing.kind = .rightParen)
    (hcondition : Expr.Derives (· = .text) 1 c condition) (h : IsRead fn ts (.one next body)) :
    IsRead fn (word :: opening :: (c ++ closing :: ts))
      (.one next [.loop name word .while_ (some condition) none .nothing body]) := by
  refine isRead_one (by rw [hword]; decide) ?_
  intro ctx rest fuel hctx hnext hfuel
  simp only [List.cons_append, List.append_assoc] at hfuel ⊢
  simp only [List.length_cons, List.length_append] at hfuel
  obtain ⟨fuel, rfl⟩ : ∃ k, fuel = k + 1 := ⟨fuel - 1, by omega⟩
  -- the keyword decides; the name is fresh, so the trees agree only up to names
  rw [statement, hword]
  refine yields_toList ?_
  rw [whileLoop.eq_def]
  refine yields_bind (yields_freshName ctx "while") fun name' _ => ?_
  refine yields_bind (yields_condition ctx word ho hc hcondition) ?_
  rintro _ rfl
  -- the body is read as a branch, up to what follows it
  refine yields_bind ((h ctx rest hctx hnext).2 fuel word (by rw [List.length_append]; omega)) ?_
  rintro ⟨body', _⟩ ⟨hbody, rfl⟩
  refine yields_pure ⟨_, rfl, ?_⟩
  simp only [Stmt.bare]
  exact congrArg _ hbody

theorem isRead_doLoop {word whileWord opening closing semicolon : Token} {c : List Token}
    {condition : Expr} {body : List Stmt} {name : Text} (hword : word.kind = .doWord)
    (hwhile : whileWord.kind = .whileWord) (ho : opening.kind = .leftParen)
    (hc : closing.kind = .rightParen) (hsemicolon : semicolon.kind = .semicolon)
    (hcondition : Expr.Derives (· = .text) 1 c condition)
    (h : IsRead fn ts (.one (some .whileWord) body)) :
    IsRead fn (word :: (ts ++ whileWord :: opening :: (c ++ [closing, semicolon])))
      (.one next [.loop name word .doWhile (some condition) none .nothing body]) := by
  refine isRead_one (by rw [hword]; decide) ?_
  intro ctx rest fuel hctx hnext hfuel
  simp only [List.cons_append, List.append_assoc, List.nil_append] at hfuel ⊢
  simp only [List.length_cons, List.length_append] at hfuel
  obtain ⟨fuel, rfl⟩ : ∃ k, fuel = k + 1 := ⟨fuel - 1, by omega⟩
  rw [statement, hword]
  refine yields_toList ?_
  rw [doLoop.eq_def]
  refine yields_bind (yields_freshName ctx "do") fun name' _ => ?_
  -- behind the body stands the keyword of its test
  have hnext : nextKind (whileWord :: opening :: (c ++ closing :: semicolon :: rest))
      = some .whileWord := congrArg some hwhile
  refine yields_bind ((h ctx _ hctx hnext).2 fuel word
    (by simp only [List.length_append, List.length_cons]; omega)) ?_
  rintro ⟨body', _⟩ ⟨hbody, rfl⟩
  -- then the keyword, the condition and the semicolon
  refine yields_bind (yields_expect ctx hwhile _) ?_
  rintro _ rfl
  refine yields_bind (yields_condition ctx whileWord ho hc hcondition) ?_
  rintro _ rfl
  refine yields_bind (yields_expect ctx hsemicolon _) ?_
  rintro _ rfl
  refine yields_pure ⟨_, rfl, ?_⟩
  simp only [Stmt.bare]
  exact congrArg _ hbody

theorem isRead_forLoop {word opening first second closing : Token} {init c step : List Token}
    {start : LoopStart} {condition? step? : Option Expr} {body : List Stmt} {name : Text}
    (hword : word.kind = .forWord) (ho : opening.kind = .leftParen)
    (hfirst : first.kind = .semicolon) (hsecond : second.kind = .semicolon)
    (hc : closing.kind = .rightParen) (hstart : Stmt.Starts (· = .text) fn init start)
    (hcondition : Stmt.Maybe (· = .text) c condition?) (hstep : Stmt.Maybe (· = .text) step step?)
    (h : IsRead fn ts (.one next body)) :
    IsRead fn (word :: opening :: (init ++ first :: (c ++ second :: step) ++ closing :: ts))
      (.one next [.loop name word .for_ condition? step? start body]) := by
  refine isRead_one (by rw [hword]; decide) ?_
  rintro ctx rest fuel rfl hnext hfuel
  rw [List.cons_append, List.append_assoc, List.cons_append] at hfuel ⊢
  simp only [List.length_cons, List.length_append] at hfuel
  obtain ⟨fuel, rfl⟩ : ∃ k, fuel = k + 1 := ⟨fuel - 1, by omega⟩
  -- The header is cut out at its parenthesis and split at its semicolons.
  have hheader : Passes (some .leftParen) .rightParen
      (init ++ first :: (c ++ second :: step)) := by
    have hsign {t : Token} (ht : t.kind = .semicolon) :
        Ignores (some .leftParen) .rightParen t.kind := by rw [ht]; exact ⟨by decide, by decide⟩
    exact (passes_parens hstart.balanced).append (.cons (hsign hfirst)
      ((passes_parens hcondition.balanced).append (.cons (hsign hsecond)
        (passes_parens hstep.balanced))))
  -- no semicolon of the parts is at the top, so there are exactly three
  have hsplit := splitTop_header hstart.balanced hcondition.balanced hstep.balanced hfirst hsecond
  rw [statement, hword]
  refine yields_toList ?_
  rw [forLoop.eq_def]
  -- the loop takes a name, then the header and the body are read
  refine yields_bind (yields_freshName ctx "for") fun name' _ => ?_
  refine yields_bind (yields_expect ctx ho _) ?_
  rintro _ rfl
  dsimp only
  rw [parenthesised, hheader.cut hc]
  dsimp only
  rw [if_neg (by simp), hsplit]
  refine yields_bind (yields_forHeader hstart hcondition hstep) ?_
  rintro _ rfl
  refine yields_bind ((h ctx rest rfl hnext).2 fuel word (by rw [List.length_append]; omega)) ?_
  rintro ⟨body', _⟩ ⟨hbody, rfl⟩
  refine yields_pure ⟨_, rfl, ?_⟩
  simp only [Stmt.bare]
  exact congrArg _ hbody

/-- A condition and its body, with what comes behind them left open. -/
theorem yields_branch {opening closing : Token} {c behind : List Token} {condition : Expr}
    {body : List Stmt} {Q : Option (Expr × List Stmt × Alternatives) × List Token → Prop}
    (ctx : ParseContext) (word : Token) (fuel : Nat) (hctx : ctx.function = fn)
    (ho : opening.kind = .leftParen) (hc : closing.kind = .rightParen)
    (hcondition : Expr.Derives (· = .text) 1 c condition)
    (h : IsRead fn ts (.one (nextKind behind) body))
    (hfuel : 4 * (opening :: (c ++ closing :: (ts ++ behind))).length + 2 ≤ fuel + 1)
    (hbehind : ∀ body', Stmt.allBare body' = Stmt.allBare body → Yields
      (match accept .elseWord behind with
        | none => return (some (condition, body', .none), behind)
        | some (elseToken, rest) => do
          let name ← freshName ctx "else"
          match accept .ifWord rest with
          | some (ifToken, rest) =>
            let (next?, rest) ← branch ctx fuel ifToken rest
            return (next?.map fun (cond', body'', more) =>
              (condition, body', .elseIf name ifToken cond' body'' more), rest)
          | none =>
            let (elseBody, rest) ← branchBody ctx fuel elseToken rest
            return (some (condition, body', .otherwise name elseToken elseBody), rest)) Q) :
    Yields (branch ctx (fuel + 1) word (opening :: (c ++ closing :: (ts ++ behind)))) Q := by
  simp only [List.length_cons, List.length_append] at hfuel
  rw [branch.eq_def]
  refine yields_bind (yields_condition ctx word ho hc hcondition) ?_
  rintro _ rfl
  -- the body, and then whatever else the branch has
  refine yields_bind ((h ctx behind hctx rfl).2 fuel word (by rw [List.length_append]; omega)) ?_
  rintro ⟨body', _⟩ ⟨hbody, rfl⟩
  exact hbehind body' hbody

theorem accept_eq_none {kind : TokenKind} {tokens : List Token} (h : nextKind tokens ≠ some kind) :
    accept kind tokens = none := by
  cases tokens with
  | nil => rfl
  | cons t rest =>
    rw [accept, if_neg]
    intro ht
    exact h (congrArg some ht)

theorem accept_cons {kind : TokenKind} {t : Token} (ht : t.kind = kind) (rest : List Token) :
    accept kind (t :: rest) = some (t, rest) := by
  rw [accept, if_pos ht]

theorem isRead_only {opening closing : Token} {c : List Token} {condition : Expr}
    {body : List Stmt} (ho : opening.kind = .leftParen) (hc : closing.kind = .rightParen)
    (helse : next ≠ some .elseWord) (hcondition : Expr.Derives (· = .text) 1 c condition)
    (h : IsRead fn ts (.one next body)) :
    IsRead fn (opening :: (c ++ closing :: ts)) (.branch next condition body .none) := by
  rintro ctx word rest fuel hctx rfl hfuel
  simp only [List.cons_append, List.append_assoc] at hfuel ⊢
  obtain ⟨fuel, rfl⟩ : ∃ k, fuel = k + 1 := ⟨fuel - 1, by omega⟩
  refine yields_branch ctx word fuel hctx ho hc hcondition h hfuel fun body' hbody => ?_
  rw [accept_eq_none helse]
  exact yields_pure ⟨body', .none, rfl, hbody, rfl⟩

theorem isRead_otherwise {opening closing elseWord : Token} {c us : List Token} {condition : Expr}
    {body other : List Stmt} {name : Text} (ho : opening.kind = .leftParen)
    (hc : closing.kind = .rightParen) (helse : elseWord.kind = .elseWord) (hne : us ≠ [])
    (hif : nextKind us ≠ some .ifWord) (hcondition : Expr.Derives (· = .text) 1 c condition)
    (h : IsRead fn ts (.one (some .elseWord) body)) (h' : IsRead fn us (.one next other)) :
    IsRead fn (opening :: (c ++ closing :: (ts ++ elseWord :: us)))
      (.branch next condition body (.otherwise name elseWord other)) := by
  intro ctx word rest fuel hctx hnext hfuel
  simp only [List.cons_append, List.append_assoc] at hfuel ⊢
  obtain ⟨fuel, rfl⟩ : ∃ k, fuel = k + 1 := ⟨fuel - 1, by omega⟩
  -- the body is followed by the keyword, which is no part of it
  have hread : IsRead fn ts (.one (nextKind (elseWord :: (us ++ rest))) body) := by
    rw [nextKind_cons, helse]
    exact h
  refine yields_branch ctx word fuel hctx ho hc hcondition hread hfuel fun body' hbody => ?_
  simp only [List.length_cons, List.length_append] at hfuel
  rw [accept_cons helse]
  refine yields_bind (yields_freshName ctx "else") fun name' _ => ?_
  -- what comes next is no further condition, so this is the last branch
  rw [accept_eq_none (by rwa [nextKind_append hne])]
  refine yields_bind ((h' ctx rest hctx hnext).2 fuel elseWord
    (by rw [List.length_append]; omega)) ?_
  rintro ⟨other', _⟩ ⟨hother, rfl⟩
  refine yields_pure ⟨body', _, rfl, hbody, ?_⟩
  simp only [Alternatives.bare]
  exact congrArg _ hother

theorem isRead_elseIf {opening closing elseWord ifWord : Token} {c us : List Token}
    {condition condition' : Expr} {body body' : List Stmt} {more : Alternatives} {name : Text}
    (ho : opening.kind = .leftParen) (hc : closing.kind = .rightParen)
    (helse : elseWord.kind = .elseWord) (hif : ifWord.kind = .ifWord)
    (hcondition : Expr.Derives (· = .text) 1 c condition)
    (h : IsRead fn ts (.one (some .elseWord) body))
    (h' : IsRead fn us (.branch next condition' body' more)) :
    IsRead fn (opening :: (c ++ closing :: (ts ++ elseWord :: ifWord :: us)))
      (.branch next condition body (.elseIf name ifWord condition' body' more)) := by
  intro ctx word rest fuel hctx hnext hfuel
  simp only [List.cons_append, List.append_assoc] at hfuel ⊢
  obtain ⟨fuel, rfl⟩ : ∃ k, fuel = k + 1 := ⟨fuel - 1, by omega⟩
  -- the body is followed by the keyword, which is no part of it
  have hread : IsRead fn ts (.one (nextKind (elseWord :: ifWord :: (us ++ rest))) body) := by
    rw [nextKind_cons, helse]
    exact h
  refine yields_branch ctx word fuel hctx ho hc hcondition hread hfuel fun body₁ hbody => ?_
  simp only [List.length_cons, List.length_append] at hfuel
  rw [accept_cons helse]
  refine yields_bind (yields_freshName ctx "else") fun name' _ => ?_
  -- a further condition: the rest of the chain is read as a branch
  rw [accept_cons hif]
  refine yields_bind (h' ctx ifWord rest fuel hctx hnext (by rw [List.length_append]; omega)) ?_
  rintro _ ⟨body₂, more', rfl, hbody', hmore⟩
  refine yields_pure ⟨body₁, _, rfl, hbody, ?_⟩
  simp only [Alternatives.bare, hbody', hmore]

/-- What writes statements is read as them. -/
theorem isRead_of_writes {form : Stmt.Form} (h : Stmt.Writes (· = .text) fn ts form) :
    IsRead fn ts form := by
  -- the induction is on how the tokens were written; each rule is read by the lemma above it
  induction h with
  | nil =>
    intro ctx fuel _ hfuel
    obtain ⟨fuel, rfl⟩ : ∃ k, fuel = k + 1 := ⟨fuel - 1, by omega⟩
    rw [statements]
    · exact yields_pure rfl
    · omega
  | cons hfirst _ ih ih' => exact isRead_cons hfirst.one_ne_nil ih ih'
  | declare htype hsemicolon hdeclares => exact isRead_declare htype hsemicolon hdeclares
  | effect hstart hsemicolon hderives => exact isRead_effect hstart hsemicolon hderives
  | return_ hword hsemicolon hmaybe => exact isRead_return hword hsemicolon hmaybe
  | empty hsemicolon =>
    refine isRead_one (by rw [hsemicolon]; decide) ?_
    intro ctx rest fuel _ _ _
    rw [statement, hsemicolon]
    exact yields_pure ⟨rfl, rfl⟩
  | braces ho hc hwrites ih => exact isRead_braces ho hc hwrites ih
  | ifElse hword _ ih => exact isRead_ifElse hword ih
  | whileLoop hword ho hc hderives _ ih => exact isRead_whileLoop hword ho hc hderives ih
  | doLoop hword hwhile ho hc hsemicolon hderives _ ih =>
    exact isRead_doLoop hword hwhile ho hc hsemicolon hderives ih
  | forLoop hword ho hfirst hsecond hc hstart hcondition hstep _ ih =>
    exact isRead_forLoop hword ho hfirst hsecond hc hstart hcondition hstep ih
  | only ho hc hnext hderives _ ih => exact isRead_only ho hc hnext hderives ih
  | otherwise ho hc helse hif hderives _ hother ih ih' =>
    exact isRead_otherwise ho hc helse hother.one_ne_nil hif hderives ih ih'
  | elseIf ho hc helse hif hderives _ _ ih ih' =>
    exact isRead_elseIf ho hc helse hif hderives ih ih'

end

/-! ## Units -/

theorem splitTop_params {ts : List Token} {params : List Param} (h : WritesParams ts params) :
    List.Forall₂ IsParam (splitTop .comma 0 ts) params := by
  induction h with
  | @last type name htype hname hident hvoid =>
    have hsplit : splitTop .comma 0 [type, name] = [[type, name]] := by
      simp [splitTop, htype, hname]
    rw [hsplit]
    exact .cons ⟨type, name, rfl, htype, hname, hident, hvoid, rfl⟩ .nil
  | @cons type name comma ts params htype hname hident hvoid hcomma _ ih =>
    have hsplit : splitTop .comma 0 (type :: name :: comma :: ts)
        = [type, name] :: splitTop .comma 0 ts := by
      simp [splitTop, htype, hname, hcomma]
    rw [hsplit]
    exact .cons ⟨type, name, rfl, htype, hname, hident, hvoid, rfl⟩ ih

theorem yields_parameters (word name : Token) {parts : List (List Token)} {params : List Param}
    (h : List.Forall₂ IsParam parts params) :
    Yields (parameters word name parts) (· = some params) := by
  induction h with
  | nil => exact yields_pure rfl
  | cons hpart _ ih =>
    obtain ⟨type, param, rfl, htype, hparam, hident, hvoid, rfl⟩ := hpart
    rw [parameters]
    dsimp only
    rw [if_neg (by simp [htype, hparam, hident]), if_neg hvoid]
    refine yields_bind ih ?_
    rintro _ rfl
    exact yields_pure rfl

theorem yields_returnType (ctx : ParseContext) {rs behind : List Token} {type : VarType}
    (h : WritesResult rs type) (hbehind : nextKind behind ≠ some .assign) :
    Yields (returnType ctx (rs ++ behind)) (· = (some type, behind)) := by
  unfold returnType
  cases h with
  | nothing =>
    rw [List.nil_append, accept_eq_none hbehind]
    exact yields_pure rfl
  | type hsign htype =>
    rw [List.cons_append, accept_cons hsign]
    refine yields_bind (yields_expect ctx htype _) ?_
    rintro _ rfl
    exact yields_pure rfl

theorem yields_functionEnd (ctx : ParseContext) {announced : FuncDecl} {bs : List Token}
    {body? : Option (List Stmt)} (hannounced : announced.body? = none)
    (h : WritesBody (· = .text) announced.name bs body?) (rest : List Token) :
    Yields (functionEnd ctx announced (bs ++ rest)) fun r => ∃ f, r = (some f, rest)
      ∧ (Decl.function f).bare = (Decl.function { announced with body? }).bare := by
  unfold functionEnd
  cases h with
  -- a function without a body ends at the semicolon
  | none hsemicolon =>
    rw [List.singleton_append, accept_cons hsemicolon]
    refine yields_pure ⟨announced, rfl, ?_⟩
    rw [← hannounced]
  | @some opening closing ts ss ho hc hwrites =>
    -- the body is cut out at its braces and read in the context of the function
    have hcut : braced (ts ++ closing :: rest) = (ts, rest, true) :=
      (passes_of_writes hwrites).cut hc
    have hother : nextKind (opening :: (ts ++ closing :: rest)) ≠ some .semicolon := by
      rw [nextKind_cons, ho]
      decide
    have hfuel : 4 * ts.length + 1 ≤ 8 * ts.length + 8 := by omega
    rw [List.cons_append, List.append_assoc, List.singleton_append, accept_eq_none hother]
    refine yields_bind (yields_expect ctx ho _) ?_
    rintro _ rfl
    dsimp only
    rw [hcut]
    refine yields_bind (isRead_of_writes hwrites (.ofTokens announced.name ts) _ rfl hfuel) ?_
    intro ss' hss
    refine yields_pure ⟨_, rfl, ?_⟩
    simp only [Decl.bare, Option.map_some, hss]

theorem yields_function (ctx : ParseContext) {word name opening closing : Token}
    {ps rs bs rest : List Token} {params : List Param} {type : VarType}
    {body? : Option (List Stmt)} (hname : name.kind = .text)
    (hident : isIdentifier name.text = true) (ho : opening.kind = .leftParen)
    (hc : closing.kind = .rightParen) (hparams : ps = [] ∧ params = [] ∨ WritesParams ps params)
    (hcount : params.length ≤ 255) (hresult : WritesResult rs type)
    (hbody : WritesBody (· = .text) name.text bs body?) :
    Yields (function ctx word (name :: opening :: (ps ++ closing :: (rs ++ (bs ++ rest)))))
      fun r => ∃ f, r = (some f, rest) ∧ (Decl.function f).bare
        = (Decl.function ⟨name.text, word, params, type, body?⟩).bare := by
  have hbalanced : Balanced ps := by
    rcases hparams with ⟨rfl, rfl⟩ | hparams
    · exact .nil
    · exact hparams.balanced.1
  -- result type and body, whether there are parameters or not
  have htail : Yields (functionTail ctx word name params (rs ++ (bs ++ rest))) fun r =>
      ∃ f, r = (some f, rest) ∧ (Decl.function f).bare
        = (Decl.function ⟨name.text, word, params, type, body?⟩).bare := by
    refine yields_bind (yields_returnType ctx hresult (hbody.head rest)) ?_
    rintro _ rfl
    exact yields_functionEnd ctx rfl hbody rest
  unfold function
  rw [accept_cons hname]
  dsimp only
  rw [if_neg (by simp [hident])]
  refine yields_bind (yields_expect ctx ho _) ?_
  rintro _ rfl
  dsimp only
  -- the parameters are cut out at their parentheses
  rw [parenthesised, (passes_parens hbalanced).cut hc]
  dsimp only
  rw [if_neg (by simp)]
  rcases hparams with ⟨rfl, rfl⟩ | hparams
  · exact htail
  · -- there are parameters, and not too many
    rw [if_neg (by simpa using hparams.balanced.2)]
    refine yields_bind (yields_parameters word name (splitTop_params hparams)) ?_
    rintro _ rfl
    dsimp only
    rw [if_neg (by simpa [maxParameters] using hcount)]
    exact htail

theorem yields_declaration {ctx : ParseContext} (hctx : ctx.function = []) {ts : List Token}
    {d : Decl} (h : WritesDecl (· = .text) ts d) (rest : List Token) :
    ∃ t us, ts = t :: us ∧ Yields (declaration ctx t (us ++ rest)) fun r =>
      ∃ d', r = (some d', rest) ∧ d'.bare = d.bare := by
  cases h with
  | @var type semicolon ts d htype hsemicolon hdeclares =>
    refine ⟨type, ts ++ [semicolon], rfl, ?_⟩
    rw [← hctx] at hdeclares
    rw [declaration, htype, List.append_assoc, List.singleton_append]
    refine yields_bind (yields_variable hdeclares hsemicolon) ?_
    rintro _ rfl
    exact yields_pure ⟨_, rfl, rfl⟩
  -- a field is a variable that takes the keyword for its token
  | @field word type semicolon ts d hword htype hsemicolon hdeclares =>
    refine ⟨word, type :: (ts ++ [semicolon]), rfl, ?_⟩
    rw [← hctx] at hdeclares
    rw [declaration, hword, List.cons_append, List.append_assoc, List.singleton_append]
    refine yields_bind (Q := (· = (some { d with token := word }, rest))) ?_ ?_
    · refine yields_bind (yields_expect ctx htype _) ?_
      rintro _ rfl
      refine yields_bind (yields_declTail hdeclares hsemicolon) ?_
      rintro _ ⟨parts, rfl, rfl⟩
      exact yields_pure rfl
    · rintro _ rfl
      exact yields_pure ⟨_, rfl, rfl⟩
  | @function word name opening closing ps rs bs params type body? hword hname hident ho hc hparams
      hcount hresult hbody =>
    refine ⟨word, name :: opening :: (ps ++ closing :: (rs ++ bs)), rfl, ?_⟩
    rw [declaration, hword]
    simp only [List.cons_append, List.append_assoc]
    refine yields_bind (yields_function ctx hname hident ho hc hparams hcount hresult hbody) ?_
    rintro _ ⟨f, rfl, hbare⟩
    exact yields_pure ⟨_, rfl, hbare⟩

/-- What writes a unit is read as it. -/
theorem yields_declarations {ctx : ParseContext} (hctx : ctx.function = []) {ts : List Token}
    {ds : List Decl} (h : WritesUnit (· = .text) ts ds) (fuel : Nat) (hfuel : ts.length ≤ fuel) :
    Yields (declarations ctx fuel ts) fun ds' => ds'.map Decl.bare = ds.map Decl.bare := by
  induction h generalizing fuel with
  | nil =>
    cases fuel <;> exact yields_pure rfl
  | @empty semicolon ts ds hsemicolon _ ih =>
    -- a lone semicolon is no declaration
    have hnone : Yields (declaration ctx semicolon ts) (· = (none, ts)) := by
      rw [declaration, hsemicolon]
      exact yields_pure rfl
    rw [List.length_cons] at hfuel
    obtain ⟨fuel, rfl⟩ : ∃ k, fuel = k + 1 := ⟨fuel - 1, by omega⟩
    rw [declarations]
    refine yields_bind hnone ?_
    rintro _ rfl
    refine yields_bind (ih fuel (by omega)) fun ds' hds => ?_
    exact yields_pure hds
  | @cons ts rest d ds hdecl _ ih =>
    obtain ⟨t, us, rfl, hfirst⟩ := yields_declaration hctx hdecl rest
    rw [List.cons_append, List.length_cons, List.length_append] at hfuel
    obtain ⟨fuel, rfl⟩ : ∃ k, fuel = k + 1 := ⟨fuel - 1, by omega⟩
    rw [List.cons_append, declarations]
    refine yields_bind hfirst ?_
    rintro _ ⟨d', rfl, hd⟩
    refine yields_bind (ih fuel (by omega)) fun ds' hds => ?_
    refine yields_pure ?_
    simp only [Option.toList, List.singleton_append, List.map_cons, hd, hds]

/-- Reading a unit records no diagnostic and answers declarations. -/
def Reads (tokens : List Token) (ds : List Decl) : Prop :=
  ∃ s log, ((program tokens).run {}).run { strict := false } = .ok (ds, s) log
    ∧ log.diagnostics = []

theorem reads_iff_clean {tokens : List Token} {ds : List Decl} :
    Reads tokens ds ↔ ∃ s, Clean (program tokens) {} ds s := by
  constructor
  · rintro ⟨s, log, hrun, hlog⟩
    have hentries : log.entries = [] := List.reverse_eq_nil_iff.1 hlog
    exact ⟨s, ((faithful_program tokens).clean hrun hentries).2⟩
  · rintro ⟨s, hclean⟩
    obtain ⟨r, new, hlenient, hstrict⟩ := faithful_program tokens {}
    rw [Clean, hstrict] at hclean
    cases hnew : new.getLast? with
    | some first => simp [hnew] at hclean
    | none =>
      obtain rfl := List.getLast?_eq_none_iff.1 hnew
      cases hclean
      exact ⟨_, _, hlenient [], rfl⟩

/-- A writing of a unit is read, up to generated names. -/
theorem exists_reads {ts : List Token} {ds : List Decl} (h : WritesUnit (· = .text) ts ds) :
    ∃ ds', Reads ts ds' ∧ ds'.map Decl.bare = ds.map Decl.bare := by
  have hyields := @yields_declarations (.ofTokens [] ts) rfl _ _ h _ (Nat.le_refl _)
  obtain ⟨ds', s, hclean, hds⟩ := hyields {}
  exact ⟨ds', reads_iff_clean.2 ⟨s, hclean⟩, hds⟩

/-- Reading inverts rendering and loses nothing. The rendering of a program, and every other writing
of it, is read without a diagnostic as the same program, up to generated names. Tokens that are read
without a diagnostic write what is read, and where no quotes enclose anything but a text, they are
like the rendering of what is read. -/
theorem read_inverts_render (ts : List Token) (ds : List Decl) :
    ((∀ d ∈ ds, d.WellFormed) →
      ∃ ds', Reads (render ds) ds' ∧ ds'.map Decl.bare = ds.map Decl.bare)
    ∧ (WritesUnit (· = .text) ts ds →
      ∃ ds', Reads ts ds' ∧ ds'.map Decl.bare = ds.map Decl.bare)
    ∧ (Reads ts ds → WritesUnit Expr.AnyContent ts ds)
    ∧ (¬ Expr.LooseString ts → Reads ts ds →
      WritesUnit (· = .text) ts ds ∧ Alike ts (render ds)) := by
  have hsound (h : Reads ts ds) : WritesUnit Expr.AnyContent ts ds := by
    obtain ⟨s, hclean⟩ := reads_iff_clean.1 h
    exact writesUnit_of_clean hclean
  refine ⟨?_, exists_reads, hsound, ?_⟩
  · intro hds
    obtain ⟨qs, hqs, hwrites⟩ := writesUnit_render hds
    obtain ⟨ds', hreads, hbare⟩ := exists_reads hwrites
    exact ⟨ds', hreads, hbare.trans hqs⟩
  · intro hstrict h
    have hwrites := (hsound h).strict hstrict
    exact ⟨hwrites, hwrites.alike⟩

/-- A function that returns its parameter, or five where that is zero. -/
def orFive : List Decl :=
  let a : Token := ⟨.text, [0x61], 1, []⟩
  let word : Token := signToken .returnWord
  [.function ⟨[0x66], signToken .define, [⟨a, .int, [0x61]⟩], .int,
    some [.ifElse [] (signToken .ifWord) (.ident a) [.expr [] word .return_ (some (.ident a))]
      (.otherwise [] (signToken .elseWord)
        [.expr [] word .return_ (some (.number ⟨.number, [0x35], 3, []⟩))])]⟩]

/-- A function whose body returns what stands between the quotes at the ends of two lines. -/
def brokenReturn : List Token :=
  [signToken .define, ⟨.text, [0x66], 1, []⟩, signToken .leftParen, signToken .rightParen,
    signToken .assign, .made .typeName (Text.ofString "string"), signToken .leftBrace,
    signToken .returnWord, ⟨.quote, [0x22], 1, []⟩, ⟨.number, [0x35], 2, []⟩,
    ⟨.quote, [0x22], 2, []⟩, signToken .semicolon, signToken .rightBrace]

theorem wellFormed_orFive : ∀ d ∈ orFive, d.WellFormed := by
  intro d hd
  obtain rfl := List.mem_singleton.1 hd
  have hparam : Expr.InGrammar (.ident ⟨.text, [0x61], 1, []⟩) :=
    ⟨_, (Expr.Derives.ident rfl rfl).lower (by decide)⟩
  have hfive : Expr.InGrammar (.number ⟨.number, [0x35], 3, []⟩) :=
    ⟨_, (Expr.Derives.number rfl).lower (by decide)⟩
  refine ⟨rfl, rfl, ?_, by decide, rfl, ?_⟩
  · intro p hp
    obtain rfl := List.mem_singleton.1 hp
    exact ⟨rfl, rfl, rfl, rfl, by decide⟩
  · rintro ss ⟨⟩
    have hthen : Stmt.AllWellFormed [0x66]
        [.expr [] (signToken .returnWord) .return_ (some (.ident ⟨.text, [0x61], 1, []⟩))] :=
      ⟨⟨rfl, fun e he => Option.some.inj he ▸ hparam⟩, trivial⟩
    have helse : Stmt.AllWellFormed [0x66]
        [.expr [] (signToken .returnWord) .return_ (some (.number ⟨.number, [0x35], 3, []⟩))] :=
      ⟨⟨rfl, fun e he => Option.some.inj he ▸ hfive⟩, trivial⟩
    exact ⟨⟨rfl, hparam, hthen, rfl, helse⟩, trivial⟩

theorem not_looseString_orFive : ¬ Expr.LooseString (render orFive) := by
  rintro ⟨opening, body, closing, hin, hopening, -⟩
  have hkinds : ∀ t ∈ render orFive, t.kind ≠ .quote := by decide
  exact hkinds opening (hin.subset (by simp)) hopening

/-- A function with both branches is read back from its rendering; a number between two quotes is
read as the string `5`, so nothing is left of the number. -/
theorem orFive_read_back :
    (∃ ds, Reads (render orFive) ds ∧ ds.map Decl.bare = orFive.map Decl.bare
      ∧ ¬ Expr.LooseString (render orFive) ∧ WritesUnit (· = .text) (render orFive) ds
      ∧ Alike (render orFive) (render ds))
    ∧ ∃ ds, Reads brokenReturn ds ∧ WritesUnit Expr.AnyContent brokenReturn ds
      ∧ Expr.LooseString brokenReturn ∧ ¬ Alike brokenReturn (render ds) := by
  obtain ⟨ds, hreads, hbare⟩ := (read_inverts_render [] orFive).1 wellFormed_orFive
  have halike := (read_inverts_render _ ds).2.2.2 not_looseString_orFive hreads
  have hloose : Expr.LooseString brokenReturn :=
    ⟨_, _, _, ⟨brokenReturn.take 8, brokenReturn.drop 11, rfl⟩, rfl, rfl, by decide, by decide⟩
  have htype : VarType.ofName (Text.ofString "string") = .string := by decide +kernel
  have hbroken : Reads brokenReturn
      [.function ⟨[0x66], signToken .define, [], VarType.ofName (Text.ofString "string"),
        some [.expr (Text.ofString "f$return1") (signToken .returnWord) .return_
          (some (.string ⟨.quote, [0x22], 1, []⟩ [0x35]))]⟩] :=
    ⟨_, _, rfl, rfl⟩
  -- the string spans two lines, so it is read but is not what a rendering gives
  rw [htype] at hbroken
  refine ⟨⟨ds, hreads, hbare, not_looseString_orFive, halike⟩, _, hbroken,
    (read_inverts_render _ _).2.2.1 hbroken, hloose, ?_⟩
  intro h
  have hnumber := h.exists_number ⟨⟨.number, [0x35], 2, []⟩, by decide, rfl⟩
  exact absurd hnumber (by decide)

end Parsing

end TickScript
