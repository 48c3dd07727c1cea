import TickScript.Proofs.Stmt.Grammar
import TickScript.Proofs.Syntax

/-!
# Rendering programs

A program is rendered with every body in braces, with as few parentheses in expressions as possible
and without the result of a function that has none. Where the tree holds a token, the rendering has
that token; all others are made up.

Trees are compared without what they do not say: the generated names of statements, and the token
that an expression statement was found to start at. `Alike` compares token lists without what a
writer may add: semicolons, parentheses, braces, and a result `void`.

A rendering is only one of the writings of a tree, the one that has everything a reader does not
need left out of expressions and everything it could need put around bodies. That it is a writing
(`Stmt.WellFormed.writes`) asks that the tree is one of the language: that names are names, that a
parameter has a type, that a return stands in a function of its kind.
-/

namespace TickScript

open TickScript.Expr (signToken)

/-- A made up token. -/
def Token.made (kind : TokenKind) (text : Text) : Token := ⟨kind, text, 0, []⟩

@[simp] theorem Token.text_made (kind : TokenKind) (text : Text) :
    (Token.made kind text).text = text := rfl

/-- The tokens in parentheses. -/
def inParens (ts : List Token) : List Token :=
  signToken .leftParen :: (ts ++ [signToken .rightParen])

/-- The tokens in braces. -/
def inBraces (ts : List Token) : List Token :=
  signToken .leftBrace :: (ts ++ [signToken .rightBrace])

/-- The tokens of an expression that may be missing. -/
def Expr.spellMaybe (e? : Option Expr) : List Token := e?.elim [] spell

/-- The tokens of the declaration of a variable behind its type. -/
def VarDecl.tokens (d : VarDecl) : List Token :=
  .made .text d.name :: d.initial?.elim [] fun e => signToken .assign :: e.spell

/-- The tokens of what a loop starts with. -/
def LoopStart.tokens : LoopStart → List Token
  | .nothing => []
  | .declare d => d.token :: d.tokens
  | .evaluate e => e.spell

mutual

/-- The tokens of a statement. -/
def Stmt.tokens : Stmt → List Token
  | .declare d => d.token :: (d.tokens ++ [signToken .semicolon])
  | .expr _ start kind e? =>
    if kind = .return_ then start :: (Expr.spellMaybe e? ++ [signToken .semicolon])
    else Expr.spellMaybe e? ++ [signToken .semicolon]
  | .ifElse _ word condition body rest =>
    word :: (inParens condition.spell ++ (inBraces (Stmt.allTokens body) ++ rest.tokens))
  | .loop _ word .doWhile condition? _ _ body =>
    word :: (inBraces (Stmt.allTokens body) ++ signToken .whileWord ::
      (inParens (Expr.spellMaybe condition?) ++ [signToken .semicolon]))
  | .loop _ word .while_ condition? _ _ body =>
    word :: (inParens (Expr.spellMaybe condition?) ++ inBraces (Stmt.allTokens body))
  | .loop _ word .for_ condition? step? start body =>
    word :: (inParens (start.tokens ++ signToken .semicolon ::
      (Expr.spellMaybe condition? ++ signToken .semicolon :: Expr.spellMaybe step?))
      ++ inBraces (Stmt.allTokens body))

/-- The tokens of statements. -/
def Stmt.allTokens : List Stmt → List Token
  | [] => []
  | s :: rest => s.tokens ++ Stmt.allTokens rest

/-- The tokens of the branches behind the first one. -/
def Alternatives.tokens : Alternatives → List Token
  | .none => []
  | .otherwise _ word body => word :: inBraces (Stmt.allTokens body)
  | .elseIf _ word condition body rest =>
    signToken .elseWord :: word ::
      (inParens condition.spell ++ (inBraces (Stmt.allTokens body) ++ rest.tokens))

end

/-- The tokens of a parameter. -/
def Param.tokens (p : Param) : List Token := [.made .typeName p.type.name, p.token]

/-- The tokens of parameters, with commas between them. -/
def Param.allTokens : List Param → List Token
  | [] => []
  | [p] => p.tokens
  | p :: rest => p.tokens ++ signToken .comma :: Param.allTokens rest

/-- The tokens of the result of a function. -/
def VarType.resultTokens (type : VarType) : List Token :=
  if type = .void then [] else [signToken .assign, .made .typeName type.name]

/-- The tokens of a body, or of the semicolon in its place. -/
def Stmt.bodyTokens : Option (List Stmt) → List Token
  | none => [signToken .semicolon]
  | some body => inBraces (Stmt.allTokens body)

/-- The tokens of a function. -/
def FuncDecl.tokens (f : FuncDecl) : List Token :=
  f.token :: .made .text f.name :: (inParens (Param.allTokens f.params)
    ++ (f.returnType.resultTokens ++ Stmt.bodyTokens f.body?))

/-- The tokens of a declaration. -/
def Decl.tokens : Decl → List Token
  | .field d => d.token :: .made .typeName d.type.name :: (d.tokens ++ [signToken .semicolon])
  | .var d => d.token :: (d.tokens ++ [signToken .semicolon])
  | .function f => f.tokens

/-- The tokens of a program. -/
def render (ds : List Decl) : List Token := ds.flatMap Decl.tokens

/-! ## Comparing trees -/

mutual

/-- A statement without generated names and without the place where an expression starts. -/
def Stmt.bare : Stmt → Stmt
  | .declare d => .declare d
  | .expr _ start kind e? => .expr [] (if kind = .return_ then start else .nowhere) kind e?
  | .ifElse _ word condition body rest => .ifElse [] word condition (Stmt.allBare body) rest.bare
  | .loop _ word kind condition? step? start body =>
    .loop [] word kind condition? step? start (Stmt.allBare body)

/-- Statements without generated names. -/
def Stmt.allBare : List Stmt → List Stmt
  | [] => []
  | s :: rest => s.bare :: Stmt.allBare rest

/-- Branches without generated names. -/
def Alternatives.bare : Alternatives → Alternatives
  | .none => .none
  | .otherwise _ word body => .otherwise [] word (Stmt.allBare body)
  | .elseIf _ word condition body rest =>
    .elseIf [] word condition (Stmt.allBare body) rest.bare

end

/-- A declaration without generated names. -/
def Decl.bare : Decl → Decl
  | .function f => .function { f with body? := f.body?.map Stmt.allBare }
  | d => d

@[simp] theorem Stmt.allBare_append (a b : List Stmt) : allBare (a ++ b) = allBare a ++ allBare b := by
  induction a with
  | nil => rfl
  | cons s a ih => simp only [List.cons_append, allBare, ih]

@[simp] theorem Stmt.allTokens_append (a b : List Stmt) :
    allTokens (a ++ b) = allTokens a ++ allTokens b := by
  induction a with
  | nil => rfl
  | cons s a ih => simp only [List.cons_append, allTokens, ih, List.append_assoc]

/-! ## Trees of the language -/

/-- An expression that the grammar derives from some tokens. -/
def Expr.InGrammar (e : Expr) : Prop := ∃ ts, Derives (· = .text) 1 ts e

/-- The declaration of a variable with the type that a token names. -/
structure VarDecl.WellFormed (fn : Text) (type : Token) (d : VarDecl) : Prop where
  /-- The token names a type. -/
  typeName : type.kind = .typeName
  /-- Other than void. -/
  nonvoid : type.text ≠ Text.ofString "void"
  /-- The type of the variable is the one that it names. -/
  type : d.type = VarType.ofName type.text
  /-- The name is an identifier. -/
  name : isIdentifier d.name = true
  /-- The id is that of the name, qualified by the function. -/
  id : d.id = Name.id (if fn.isEmpty then d.name else Name.qualified fn d.name)
  /-- The initial value is an expression of the language. -/
  initial : ∀ e, d.initial? = some e → e.InGrammar

/-- What a for loop may start with. -/
def LoopStart.WellFormed (fn : Text) : LoopStart → Prop
  | .nothing => True
  | .declare d => d.WellFormed fn d.token
  | .evaluate e => e.InGrammar

mutual

/-- A statement of the language in a function. -/
def Stmt.WellFormed (fn : Text) : Stmt → Prop
  | .declare d => d.WellFormed fn d.token
  | .expr _ start kind e? =>
    if kind = .return_ then start.kind = .returnWord ∧ ∀ e, e? = some e → e.InGrammar
    else ∃ e, e? = some e ∧ kind = e.kind ∧ e.InGrammar
  | .ifElse _ word condition body rest =>
    word.kind = .ifWord ∧ condition.InGrammar ∧ Stmt.AllWellFormed fn body ∧ rest.WellFormed fn
  | .loop _ word .doWhile condition? step? start body =>
    word.kind = .doWord ∧ (∃ c, condition? = some c ∧ c.InGrammar) ∧ step? = none
      ∧ start = .nothing ∧ Stmt.AllWellFormed fn body
  | .loop _ word .while_ condition? step? start body =>
    word.kind = .whileWord ∧ (∃ c, condition? = some c ∧ c.InGrammar) ∧ step? = none
      ∧ start = .nothing ∧ Stmt.AllWellFormed fn body
  | .loop _ word .for_ condition? step? start body =>
    word.kind = .forWord ∧ (∀ c, condition? = some c → c.InGrammar)
      ∧ (∀ e, step? = some e → e.InGrammar) ∧ start.WellFormed fn ∧ Stmt.AllWellFormed fn body

/-- Statements of the language. -/
def Stmt.AllWellFormed (fn : Text) : List Stmt → Prop
  | [] => True
  | s :: rest => s.WellFormed fn ∧ Stmt.AllWellFormed fn rest

/-- Branches of the language. -/
def Alternatives.WellFormed (fn : Text) : Alternatives → Prop
  | .none => True
  | .otherwise _ word body => word.kind = .elseWord ∧ Stmt.AllWellFormed fn body
  | .elseIf _ word condition body rest =>
    word.kind = .ifWord ∧ condition.InGrammar ∧ Stmt.AllWellFormed fn body ∧ rest.WellFormed fn

end

/-- A parameter of the language. -/
structure Param.WellFormed (p : Param) : Prop where
  text : p.token.kind = .text
  name : p.name = p.token.text
  identifier : isIdentifier p.name = true
  type : p.type.Storable

/-- A function of the language. -/
structure FuncDecl.WellFormed (f : FuncDecl) : Prop where
  /-- The token is the word that defines functions. -/
  word : f.token.kind = .define
  /-- The name is an identifier. -/
  name : isIdentifier f.name = true
  /-- The parameters are those of the language. -/
  params : ∀ p ∈ f.params, p.WellFormed
  /-- No more of them than a byte can count. -/
  count : f.params.length ≤ 255
  /-- The result has a type, void included. -/
  returnType : f.returnType.isKnown = true
  /-- The body holds statements of the language. -/
  body : ∀ ss, f.body? = some ss → Stmt.AllWellFormed f.name ss

/-- A declaration of the language. -/
def Decl.WellFormed : Decl → Prop
  | .field d => d.token.kind = .field ∧ d.type.Storable ∧ isIdentifier d.name = true
      ∧ d.id = Name.id d.name ∧ ∀ e, d.initial? = some e → e.InGrammar
  | .var d => d.WellFormed [] d.token
  | .function f => f.WellFormed

/-! ## A rendering writes its tree -/

theorem Expr.InGrammar.derives {e : Expr} (h : e.InGrammar) : Derives (· = .text) 1 e.spell e := by
  obtain ⟨ts, hderives⟩ := h
  have hspell : Derives (· = .text) e.stratum e.spell e := hderives.spell (by rfl)
  exact hspell.lower (stratum_pos e)

theorem Stmt.maybe_spellMaybe {e? : Option Expr} (h : ∀ e, e? = some e → e.InGrammar) :
    Stmt.Maybe (· = .text) (Expr.spellMaybe e?) e? := by
  cases e? with
  | none => exact .none
  | some e => exact .some (h e rfl).derives

theorem VarDecl.WellFormed.declares {fn : Text} {type : Token} {d : VarDecl}
    (h : d.WellFormed fn type) :
    Stmt.Declares (· = .text) fn type d.tokens { d with token := type } := by
  obtain ⟨name, id, token, varType, initial?⟩ := d
  obtain rfl : id = Name.id (if fn.isEmpty then name else Name.qualified fn name) := h.id
  obtain rfl : varType = VarType.ofName type.text := h.type
  have hname : isIdentifier (Token.made .text name).text = true := h.name
  cases initial? with
  | none => exact .plain h.nonvoid rfl hname
  | some e => exact .initial h.nonvoid rfl hname rfl (h.initial e rfl).derives

theorem LoopStart.WellFormed.starts {fn : Text} {start : LoopStart} (h : start.WellFormed fn) :
    Stmt.Starts (· = .text) fn start.tokens start := by
  cases start with
  | nothing => exact .nothing
  | declare d => exact .declare (VarDecl.WellFormed.typeName h) (VarDecl.WellFormed.declares h)
  | evaluate e => exact .evaluate (Expr.InGrammar.derives h)

namespace Stmt

variable {fn : Text}

theorem head_tokens {s : Stmt} (h : s.WellFormed fn) : nextKind s.tokens ≠ some .elseWord := by
  cases s with
  | declare d => simp [tokens, nextKind, (VarDecl.WellFormed.typeName h)]
  | expr name start kind e? =>
    simp only [WellFormed] at h
    simp only [tokens]
    split at h
    next hkind => simp [hkind, nextKind, h.1]
    next hkind =>
      obtain ⟨e, rfl, -, he⟩ := h
      obtain ⟨t, rest, hspell, ht⟩ := he.derives.head
      rw [if_neg hkind, Expr.spellMaybe, Option.elim_some, hspell]
      intro helse
      obtain hword : t.kind = .elseWord := Option.some.inj helse
      rw [hword] at ht
      cases ht
  | ifElse name word condition body rest => simp [tokens, nextKind, h.1]
  | loop name word kind condition? step? start body =>
    cases kind <;> simp [tokens, nextKind, h.1]

theorem tokens_ne_nil (s : Stmt) : s.tokens ≠ [] := by
  cases s with
  | expr name start kind e? =>
    rw [tokens]
    split <;> simp
  | loop name word kind condition? step? start body => cases kind <;> simp [tokens]
  | _ => simp [tokens]

theorem head_allTokens {ss : List Stmt} (h : AllWellFormed fn ss) :
    nextKind (allTokens ss) ≠ some .elseWord := by
  cases ss with
  | nil => simp [allTokens, nextKind]
  | cons s rest =>
    rw [allTokens, nextKind_append s.tokens_ne_nil]
    exact head_tokens h.1

theorem writes_braces {content : TokenKind → Prop} {ts : List Token} {ss : List Stmt}
    (h : Writes content fn ts (.block ss)) (next : Option TokenKind) :
    Writes content fn (inBraces ts) (.one next ss) := .braces rfl rfl h

theorem writes_only {content : TokenKind → Prop} {c bs : List Token} {condition : Expr}
    {body : List Stmt} {next : Option TokenKind} (hnext : next ≠ some .elseWord)
    (hc : Expr.Derives content 1 c condition) (hbody : Writes content fn bs (.one next body)) :
    Writes content fn (inParens c ++ bs) (.branch next condition body .none) := by
  simpa [inParens] using Writes.only rfl rfl hnext hc hbody

end Stmt

mutual

/-- The tokens of a statement write it. -/
theorem Stmt.WellFormed.writes {fn : Text} : (s : Stmt) → s.WellFormed fn →
    (next : Option TokenKind) → next ≠ some .elseWord →
    ∃ q : Stmt, q.bare = s.bare ∧ Stmt.Writes (· = .text) fn s.tokens (.one next [q])
  | .declare d, h, next, _ => ⟨.declare d, rfl, .declare h.typeName rfl h.declares⟩
  | .expr name start kind e?, h, next, _ => by
    simp only [Stmt.WellFormed] at h
    split at h
    -- a return, with a value or without
    next hkind =>
      subst hkind
      refine ⟨.expr name start .return_ e?, rfl, ?_⟩
      rw [Stmt.tokens, if_pos rfl]
      exact .return_ h.1 rfl (Stmt.maybe_spellMaybe h.2)
    -- an expression, found to start at its own first token
    next hkind =>
      obtain ⟨e, rfl, rfl, he⟩ := h
      obtain ⟨t, rest, hspell, -⟩ := he.derives.head
      refine ⟨.expr name t e.kind (some e), by simp only [Stmt.bare, if_neg hkind], ?_⟩
      rw [Stmt.tokens, if_neg hkind]
      exact .effect (by rw [Expr.spellMaybe, Option.elim_some, hspell]; rfl) rfl he.derives
  | .ifElse name word condition body rest, h, next, hnext => by
    obtain ⟨hword, hcondition, hbody, hrest⟩ := h
    obtain ⟨qs, hqs, hwrites⟩ := Stmt.AllWellFormed.writes body hbody
    obtain ⟨rest', hrest', hbranch⟩ := Alternatives.WellFormed.writes rest hrest hcondition.derives
      (Stmt.writes_braces hwrites) next hnext
    exact ⟨.ifElse name word condition qs rest', by simp only [Stmt.bare, hqs, hrest'],
      .ifElse hword hbranch⟩
  | .loop name word .doWhile condition? step? start body, h, next, _ => by
    obtain ⟨hword, ⟨c, rfl, hc⟩, rfl, rfl, hbody⟩ := h
    obtain ⟨qs, hqs, hwrites⟩ := Stmt.AllWellFormed.writes body hbody
    refine ⟨.loop name word .doWhile (some c) none .nothing qs, by simp only [Stmt.bare, hqs], ?_⟩
    have htokens : (Stmt.loop name word .doWhile (some c) none .nothing body).tokens
        = word :: (inBraces (Stmt.allTokens body) ++ signToken .whileWord :: signToken .leftParen ::
          (c.spell ++ [signToken .rightParen, signToken .semicolon])) := by
      simp [Stmt.tokens, inParens, Expr.spellMaybe]
    rw [htokens]
    exact .doLoop hword rfl rfl rfl rfl hc.derives (Stmt.writes_braces hwrites _)
  | .loop name word .while_ condition? step? start body, h, next, _ => by
    obtain ⟨hword, ⟨c, rfl, hc⟩, rfl, rfl, hbody⟩ := h
    obtain ⟨qs, hqs, hwrites⟩ := Stmt.AllWellFormed.writes body hbody
    refine ⟨.loop name word .while_ (some c) none .nothing qs, by simp only [Stmt.bare, hqs], ?_⟩
    have htokens : (Stmt.loop name word .while_ (some c) none .nothing body).tokens
        = word :: signToken .leftParen :: (c.spell ++ signToken .rightParen ::
          inBraces (Stmt.allTokens body)) := by
      simp [Stmt.tokens, inParens, Expr.spellMaybe]
    rw [htokens]
    exact .whileLoop hword rfl rfl hc.derives (Stmt.writes_braces hwrites next)
  | .loop name word .for_ condition? step? start body, h, next, _ => by
    obtain ⟨hword, hc, hstep, hstart, hbody⟩ := h
    obtain ⟨qs, hqs, hwrites⟩ := Stmt.AllWellFormed.writes body hbody
    refine ⟨.loop name word .for_ condition? step? start qs, by simp only [Stmt.bare, hqs], ?_⟩
    have htokens : (Stmt.loop name word .for_ condition? step? start body).tokens
        = word :: signToken .leftParen :: (start.tokens ++ signToken .semicolon ::
          (Expr.spellMaybe condition? ++ signToken .semicolon :: Expr.spellMaybe step?)
          ++ signToken .rightParen :: inBraces (Stmt.allTokens body)) := by
      simp [Stmt.tokens, inParens]
    rw [htokens]
    exact .forLoop hword rfl rfl rfl rfl hstart.starts (Stmt.maybe_spellMaybe hc)
      (Stmt.maybe_spellMaybe hstep) (Stmt.writes_braces hwrites next)

/-- The tokens of statements write them. -/
theorem Stmt.AllWellFormed.writes {fn : Text} : (ss : List Stmt) → Stmt.AllWellFormed fn ss →
    ∃ qs : List Stmt, Stmt.allBare qs = Stmt.allBare ss
      ∧ Stmt.Writes (· = .text) fn (Stmt.allTokens ss) (.block qs)
  | [], _ => ⟨[], rfl, .nil⟩
  | s :: rest, h => by
    obtain ⟨qs, hqs, hrest⟩ := Stmt.AllWellFormed.writes rest h.2
    obtain ⟨q, hq, hfirst⟩ := Stmt.WellFormed.writes s h.1 _ (Stmt.head_allTokens h.2)
    exact ⟨[q] ++ qs, by simp only [List.singleton_append, Stmt.allBare, hq, hqs],
      .cons hfirst hrest⟩

/-- A condition and a body with the tokens of branches behind them write all of it. -/
theorem Alternatives.WellFormed.writes {fn : Text} {c bs : List Token} {condition : Expr}
    {body : List Stmt} : (rest : Alternatives) → rest.WellFormed fn →
    Expr.Derives (· = .text) 1 c condition →
    (∀ next, Stmt.Writes (· = .text) fn bs (.one next body)) →
    (next : Option TokenKind) → next ≠ some .elseWord →
    ∃ rest' : Alternatives, rest'.bare = rest.bare ∧ Stmt.Writes (· = .text) fn
      (inParens c ++ (bs ++ rest.tokens)) (.branch next condition body rest')
  | .none, _, hc, hbody, next, hnext => by
    refine ⟨.none, rfl, ?_⟩
    rw [Alternatives.tokens, List.append_nil]
    exact Stmt.writes_only hnext hc (hbody next)
  | .otherwise name word other, h, hc, hbody, next, hnext => by
    obtain ⟨hword, hother⟩ := h
    obtain ⟨qs, hqs, hwrites⟩ := Stmt.AllWellFormed.writes other hother
    refine ⟨.otherwise name word qs, by simp only [Alternatives.bare, hqs], ?_⟩
    have htokens : inParens c ++ (bs ++ (Alternatives.otherwise name word other).tokens)
        = signToken .leftParen :: (c ++ signToken .rightParen ::
          (bs ++ word :: inBraces (Stmt.allTokens other))) := by
      simp [Alternatives.tokens, inParens]
    rw [htokens]
    exact .otherwise rfl rfl hword (by simp [nextKind, inBraces, signToken]) hc (hbody _)
      (Stmt.writes_braces hwrites next)
  | .elseIf name word condition' body' rest, h, hc, hbody, next, hnext => by
    obtain ⟨hword, hcondition, hbody', hrest⟩ := h
    obtain ⟨qs, hqs, hwrites⟩ := Stmt.AllWellFormed.writes body' hbody'
    obtain ⟨rest', hrest', hbranch⟩ := Alternatives.WellFormed.writes rest hrest hcondition.derives
      (Stmt.writes_braces hwrites) next hnext
    refine ⟨.elseIf name word condition' qs rest', by simp only [Alternatives.bare, hqs, hrest'], ?_⟩
    have htokens : inParens c ++ (bs ++ (Alternatives.elseIf name word condition' body' rest).tokens)
        = signToken .leftParen :: (c ++ signToken .rightParen :: (bs ++ signToken .elseWord :: word ::
          (inParens condition'.spell ++ (inBraces (Stmt.allTokens body') ++ rest.tokens)))) := by
      simp [Alternatives.tokens, inParens]
    rw [htokens]
    exact .elseIf rfl rfl rfl hword hc (hbody _) hbranch

end

theorem VarType.ofName_name {t : VarType} (h : t.isKnown = true) : VarType.ofName t.name = t := by
  by_cases hvoid : t = .void
  · subst hvoid
    decide +kernel
  · rcases (VarType.Storable.mk h hvoid).cases with rfl | rfl | rfl | rfl | rfl | rfl <;>
      decide +kernel

/-- A word that names no type is taken for a type that no word names. -/
theorem VarType.ofName_name_ofName (word : Text) :
    VarType.ofName (VarType.ofName word).name = VarType.ofName word := by
  have hnamed : ∀ entry ∈ VarType.named, entry.1.isKnown = true := by decide
  have hcases : (VarType.ofName word).isKnown = true ∨ VarType.ofName word = .invalid := by
    unfold VarType.ofName
    split
    next entry hfind => exact .inl (hnamed entry (List.mem_of_find?_eq_some hfind))
    next => exact .inr rfl
  obtain hknown | hinvalid := hcases
  · exact VarType.ofName_name hknown
  · rw [hinvalid]
    decide +kernel

theorem VarType.Storable.name_ne_void {t : VarType} (h : t.Storable) :
    t.name ≠ Text.ofString "void" := by
  rcases h.cases with rfl | rfl | rfl | rfl | rfl | rfl <;> decide

theorem Param.WellFormed.writes {ps : List Param} (hps : ∀ p ∈ ps, p.WellFormed)
    (hne : ps ≠ []) : WritesParams (Param.allTokens ps) ps := by
  induction ps with
  | nil => exact absurd rfl hne
  | cons p rest ih =>
    obtain ⟨token, type, name⟩ := p
    have hp := hps _ (List.mem_cons_self ..)
    obtain rfl : name = token.text := hp.name
    have htype : VarType.ofName (Token.made .typeName type.name).text = type :=
      VarType.ofName_name hp.type.known
    have hvoid : VarType.ofName (Token.made .typeName type.name).text ≠ .void := by
      rw [htype]
      exact hp.type.nonvoid
    cases rest with
    | nil =>
      have hlast : WritesParams [.made .typeName type.name, token]
          [⟨token, VarType.ofName (Token.made .typeName type.name).text, token.text⟩] :=
        .last rfl hp.text hp.identifier hvoid
      rw [htype] at hlast
      exact hlast
    | cons q rest =>
      have hrest := ih (fun p hp => hps p (List.mem_cons_of_mem _ hp)) (by simp)
      have hcons : WritesParams (.made .typeName type.name :: token :: signToken .comma ::
            Param.allTokens (q :: rest))
          (⟨token, VarType.ofName (Token.made .typeName type.name).text, token.text⟩ ::
            q :: rest) :=
        .cons rfl hp.text hp.identifier hvoid rfl hrest
      rw [htype] at hcons
      exact hcons

theorem writesResult_rendered {type : VarType} (h : type.isKnown = true) :
    WritesResult type.resultTokens type := by
  unfold VarType.resultTokens
  split
  next hvoid =>
    subst hvoid
    exact .nothing
  next =>
    have htype : WritesResult [signToken .assign, .made .typeName type.name]
        (VarType.ofName (Token.made .typeName type.name).text) := .type rfl rfl
    rwa [Token.text_made, VarType.ofName_name h] at htype

theorem FuncDecl.WellFormed.writes {f : FuncDecl} (h : f.WellFormed) :
    ∃ q, q.bare = (Decl.function f).bare ∧ WritesDecl (· = .text) f.tokens q := by
  obtain ⟨name, word, params, returnType, body?⟩ := f
  have hparams : Param.allTokens params = [] ∧ params = []
      ∨ WritesParams (Param.allTokens params) params := by
    by_cases hne : params = []
    · subst hne
      exact .inl ⟨rfl, rfl⟩
    · exact .inr (Param.WellFormed.writes h.params hne)
  have hfunction {bs : List Token} {q? : Option (List Stmt)}
      (hbody : WritesBody (· = .text) name bs q?) :
      WritesDecl (· = .text) (word :: .made .text name :: (inParens (Param.allTokens params)
        ++ (returnType.resultTokens ++ bs)))
        (.function ⟨name, word, params, returnType, q?⟩) := by
    rw [inParens, List.cons_append, List.append_assoc, List.singleton_append]
    exact .function h.word rfl h.name rfl rfl hparams h.count (writesResult_rendered h.returnType)
      hbody
  cases body? with
  | none => exact ⟨_, rfl, hfunction (.none rfl)⟩
  | some body =>
    obtain ⟨qs, hqs, hwrites⟩ := Stmt.AllWellFormed.writes body (h.body body rfl)
    refine ⟨.function ⟨name, word, params, returnType, some qs⟩, ?_, hfunction (.some rfl rfl hwrites)⟩
    simp only [Decl.bare, Option.map_some, hqs]

theorem Decl.WellFormed.writes {d : Decl} (h : d.WellFormed) :
    ∃ q : Decl, q.bare = d.bare ∧ WritesDecl (· = .text) d.tokens q := by
  cases d with
  | field d =>
    obtain ⟨hword, htype, hname, hid, hinitial⟩ := h
    have hdecl : d.WellFormed [] (.made .typeName d.type.name) :=
      ⟨rfl, htype.name_ne_void, (VarType.ofName_name htype.known).symm, hname, hid, hinitial⟩
    have hfield : WritesDecl (· = .text) (Decl.field d).tokens
        (.field { ({ d with token := .made .typeName d.type.name } : VarDecl) with token := d.token }) :=
      .field hword rfl rfl hdecl.declares
    exact ⟨.field d, rfl, hfield⟩
  | var d => exact ⟨.var d, rfl, .var (VarDecl.WellFormed.typeName h) rfl
      (VarDecl.WellFormed.declares h)⟩
  | function f => exact FuncDecl.WellFormed.writes h

/-- The tokens of a program write it. -/
theorem writesUnit_render {ds : List Decl} (h : ∀ d ∈ ds, d.WellFormed) :
    ∃ qs : List Decl, qs.map Decl.bare = ds.map Decl.bare ∧ WritesUnit (· = .text) (render ds) qs := by
  induction ds with
  | nil => exact ⟨[], rfl, .nil⟩
  | cons d ds ih =>
    obtain ⟨q, hq, hfirst⟩ := (h d (by simp)).writes
    obtain ⟨qs, hqs, hrest⟩ := ih fun d hd => h d (by simp [hd])
    refine ⟨q :: qs, by simp only [List.map_cons, hq, hqs], ?_⟩
    rw [render, List.flatMap_cons]
    exact .cons hfirst hrest

/-! ## Comparing token lists -/

/-- Two tokens say the same: the text counts where it is a name or a number, or names a type. -/
structure Token.Same (t u : Token) : Prop where
  /-- The kinds are the same. -/
  kind : t.kind = u.kind
  /-- The texts of words and numbers are the same. -/
  text : t.kind = .text ∨ t.kind = .number → t.text = u.text
  /-- The names of types mean the same type. -/
  type : t.kind = .typeName → VarType.ofName t.text = VarType.ofName u.text

theorem Token.Same.refl (t : Token) : t.Same t := ⟨rfl, fun _ => rfl, fun _ => rfl⟩

theorem Token.same_sign {t : Token} {kind : TokenKind} (h : t.kind = kind)
    (hkind : kind ∉ [.text, .number, .typeName]) : t.Same (signToken kind) := by
  simp only [List.mem_cons, List.not_mem_nil, or_false, not_or] at hkind
  refine ⟨h, ?_, ?_⟩
  · rintro (htext | hnumber)
    · exact absurd (h ▸ htext) hkind.1
    · exact absurd (h ▸ hnumber) hkind.2.1
  · intro htype
    exact absurd (h ▸ htype) hkind.2.2

theorem Token.same_text {t : Token} (h : t.kind = .text) : t.Same (.made .text t.text) := by
  refine ⟨h, fun _ => rfl, ?_⟩
  intro htype
  cases h.symm.trans htype

/-- The kinds that a writer may add. -/
def spare : List TokenKind := [.semicolon, .leftParen, .rightParen, .leftBrace, .rightBrace]

/-- Tokens as they were written, and as they are rendered: the same ones in the same order but for
spare signs on either side, a result that says `void`, and a text of no characters. -/
inductive Alike : List Token → List Token → Prop
  /-- Nothing and nothing. -/
  | nil : Alike [] []
  /-- The same token on both sides. -/
  | same {t u : Token} {ts us : List Token} : t.Same u → Alike ts us → Alike (t :: ts) (u :: us)
  /-- A token on the left that a writer may add. -/
  | extra {t : Token} {ts us : List Token} : t.kind ∈ spare → Alike ts us → Alike (t :: ts) us
  /-- One on the right. -/
  | added {u : Token} {ts us : List Token} : u.kind ∈ spare → Alike ts us → Alike ts (u :: us)
  /-- A result that is void on the left. -/
  | void {sign type : Token} {ts us : List Token} : sign.kind = .assign → type.kind = .typeName →
      VarType.ofName type.text = .void → Alike ts us → Alike (sign :: type :: ts) us
  /-- An empty text on the left, which a string without content leaves. -/
  | blank {t : Token} {ts us : List Token} : t.kind = .text → t.text = [] → Alike ts us →
      Alike (t :: ts) us

namespace Alike

variable {ts us ts' us' : List Token} {t : Token} {kind : TokenKind}

theorem append (h : Alike ts us) (h' : Alike ts' us') : Alike (ts ++ ts') (us ++ us') := by
  induction h with
  | nil => exact h'
  | same hsame _ ih => exact .same hsame ih
  | extra hspare _ ih => exact .extra hspare ih
  | added hspare _ ih => exact .added hspare ih
  | void hsign htype hvoid _ ih => exact .void hsign htype hvoid ih
  | blank htext hempty _ ih => exact .blank htext hempty ih

theorem held (t : Token) (h : Alike ts us) : Alike (t :: ts) (t :: us) := .same (.refl t) h

theorem sign (ht : t.kind = kind) (hkind : kind ∉ [.text, .number, .typeName])
    (h : Alike ts us) : Alike (t :: ts) (signToken kind :: us) := .same (Token.same_sign ht hkind) h

/-- Spare signs in front and behind on the left. -/
theorem unwrap {t' : Token} (ht : t.kind ∈ spare) (ht' : t'.kind ∈ spare) (h : Alike ts us) :
    Alike (t :: (ts ++ [t'])) us := by
  have hback := h.append (.extra ht' .nil)
  rw [List.append_nil] at hback
  exact .extra ht hback

/-- Spare signs in front and behind on the right. -/
theorem wrap {t' : Token} (ht : t.kind ∈ spare) (ht' : t'.kind ∈ spare) (h : Alike ts us) :
    Alike ts (t :: (us ++ [t'])) := by
  have hback := h.append (.added ht' .nil)
  rw [List.append_nil] at hback
  exact .added ht hback

theorem braces (h : Alike ts us) : Alike ts (inBraces us) :=
  h.wrap (by decide) (by decide)

theorem parens {o c : Token} (ho : o.kind = .leftParen) (hc : c.kind = .rightParen)
    (h : Alike ts us) (h' : Alike ts' us') :
    Alike (o :: (ts ++ c :: ts')) (inParens us ++ us') := by
  rw [inParens, List.cons_append, List.append_assoc]
  exact .sign ho (by decide) (h.append (.sign hc (by decide) h'))

theorem enclose (h : Alike ts us) (least : Nat) (e : Expr) : Alike ts (Expr.enclose least e us) := by
  unfold Expr.enclose
  split
  · exact h.wrap (by decide) (by decide)
  · exact h

/-- Numbers are never spare. -/
theorem exists_number {ts us : List Token} (h : Alike ts us)
    (hts : ∃ t ∈ ts, t.kind = .number) : ∃ u ∈ us, u.kind = .number := by
  have hspare {t : Token} (ht : t.kind ∈ spare) : t.kind ≠ .number := by
    intro hnumber
    rw [hnumber] at ht
    exact absurd ht (by decide)
  induction h with
  | nil => simp at hts
  | same hsame _ ih =>
    obtain ⟨x, hx, hnumber⟩ := hts
    obtain rfl | hx := List.mem_cons.1 hx
    · exact ⟨_, List.mem_cons_self .., hsame.kind.symm.trans hnumber⟩
    · obtain ⟨u, hu, hkind⟩ := ih ⟨x, hx, hnumber⟩
      exact ⟨u, List.mem_cons_of_mem _ hu, hkind⟩
  | extra ht _ ih => exact ih (by simpa [hspare ht] using hts)
  | added _ _ ih =>
    obtain ⟨u, hu, hkind⟩ := ih hts
    exact ⟨u, List.mem_cons_of_mem _ hu, hkind⟩
  | void hsign htype _ _ ih => exact ih (by simpa [hsign, htype] using hts)
  | blank htext _ _ ih => exact ih (by simpa [htext] using hts)

end Alike

theorem Expr.Argument.alike {more : List Argument}
    (hseps : ∀ a ∈ more, a.separator.kind = .comma) (h : ∀ a ∈ more, Alike a.tokens a.value.spell) :
    Alike (spelled more) (spellMore (more.map (·.value))) := by
  induction more with
  | nil => exact .nil
  | cons a more ih =>
    have hmore := ih (fun b hb => hseps b (by simp [hb])) (fun b hb => h b (by simp [hb]))
    rw [spelled, List.flatMap_cons, List.map_cons, spellMore]
    exact .sign (hseps a (by simp)) (by decide) ((h a (by simp)).append hmore)

/-- What spells an expression is like its rendering. -/
theorem Expr.Derives.alike {n : Nat} {ts : List Token} {e : Expr}
    (h : Derives (· = .text) n ts e) : Alike ts e.spell := by
  induction h with
  | number _ => exact .held _ .nil
  | ident _ _ => exact .held _ .nil
  | word _ => exact .held _ .nil
  | emptyString _ hc => exact .held _ (.sign hc (by decide) .nil)
  | @string opening body closing _ hb hc =>
    have hclosing : Alike [closing] [signToken .quote] := .sign hc (by decide) .nil
    rw [Expr.spell]
    split
    next hempty => exact .held _ (.blank hb (List.isEmpty_iff.1 hempty) hclosing)
    next =>
      refine .held _ (.same ⟨hb, fun _ => rfl, ?_⟩ hclosing)
      intro htype
      cases hb.symm.trans htype
  | paren ho hc _ ih => exact ih.unwrap (by rw [ho]; decide) (by rw [hc]; decide)
  | stepAfter _ _ ih => exact ih.append (.held _ .nil)
  | index ho hc _ _ iht ihs =>
    have hinner := ihs.append (.sign hc (by decide) .nil)
    exact (iht.enclose 8 _).append (.sign ho (by decide) hinner)
  | callEmpty ho hc hcallee _ ih =>
    rw [hcallee.spell_eq.1] at ih
    exact ih.append (.sign ho (by decide) (.sign hc (by decide) .nil))
  | call ho hc hcallee _ _ hseps _ ih ihfirst ihmore =>
    rw [hcallee.spell_eq.1] at ih
    have hargs := (ihfirst.append (Argument.alike hseps ihmore)).append
      (.sign hc (by decide) .nil)
    exact ih.append (.sign ho (by decide) hargs)
  | sign _ _ ih => exact .held _ (ih.enclose 7 _)
  | stepBefore _ _ ih => exact .held _ ih
  | binary hop _ _ ihl ihr => exact (ihl.enclose _ _).append (.held _ (ihr.enclose _ _))
  | assign _ _ _ iht ihv => exact iht.append (.held _ ihv)
  | lift _ ih => exact ih

theorem Expr.kind_ne_return (e : Expr) : e.kind ≠ .return_ := by
  cases e with
  | call callee args => rw [kind]; split <;> simp
  | binary operator left right => rw [kind]; split <;> simp
  | _ => simp [kind]

namespace Stmt

/-- The tokens of a form. -/
def Form.tokens : Form → List Token
  | .block ss => allTokens ss
  | .one _ ss => allTokens ss
  | .branch _ condition body rest =>
    inParens condition.spell ++ (inBraces (allTokens body) ++ rest.tokens)

variable {fn : Text} {ts : List Token}

theorem Maybe.alike {e? : Option Expr} (h : Maybe (· = .text) ts e?) :
    Alike ts (Expr.spellMaybe e?) := by
  cases h with
  | none => exact .nil
  | some h => exact h.alike

theorem Declares.alike {type : Token} {d : VarDecl} (h : Declares (· = .text) fn type ts d) :
    Alike ts d.tokens := by
  cases h with
  | plain _ hkind _ => exact .same (Token.same_text hkind) .nil
  | initial _ hkind _ hsign hderives =>
    exact .same (Token.same_text hkind) (.sign hsign (by decide) hderives.alike)

theorem Declares.token_eq {content : TokenKind → Prop} {type : Token} {d : VarDecl}
    (h : Declares content fn type ts d) : d.token = type := by
  cases h <;> rfl

theorem Declares.type_eq {content : TokenKind → Prop} {type : Token} {d : VarDecl}
    (h : Declares content fn type ts d) : d.type = VarType.ofName type.text := by
  cases h <;> rfl

theorem Starts.alike {start : LoopStart} (h : Starts (· = .text) fn ts start) :
    Alike ts start.tokens := by
  cases h with
  | nothing => exact .nil
  | declare _ hdeclares =>
    rw [LoopStart.tokens, hdeclares.token_eq]
    exact .held _ hdeclares.alike
  | evaluate hderives => exact hderives.alike

/-- What writes statements is like their rendering. -/
theorem Writes.alike {form : Form} (h : Writes (· = .text) fn ts form) : Alike ts form.tokens := by
  induction h with
  | nil => exact .nil
  | cons _ _ ih ih' =>
    rw [Form.tokens, allTokens_append]
    exact ih.append ih'
  | declare _ hsemicolon hdeclares =>
    simp only [Form.tokens, allTokens, List.append_nil, Stmt.tokens, hdeclares.token_eq]
    exact .held _ (hdeclares.alike.append (.sign hsemicolon (by decide) .nil))
  | @effect start semicolon ts e name next _ hsemicolon hderives =>
    simp only [Form.tokens, allTokens, List.append_nil, Stmt.tokens, if_neg e.kind_ne_return]
    exact hderives.alike.append (.sign hsemicolon (by decide) .nil)
  | return_ _ hsemicolon hmaybe =>
    simp only [Form.tokens, allTokens, List.append_nil, Stmt.tokens, if_pos]
    exact .held _ (hmaybe.alike.append (.sign hsemicolon (by decide) .nil))
  | empty hsemicolon => exact .extra (by rw [hsemicolon]; decide) .nil
  | braces ho hc _ ih => exact ih.unwrap (by rw [ho]; decide) (by rw [hc]; decide)
  | ifElse _ _ ih =>
    simp only [Form.tokens, allTokens, List.append_nil, Stmt.tokens]
    exact .held _ ih
  | whileLoop _ ho hc hderives _ ih =>
    simp only [Form.tokens, allTokens, List.append_nil, Stmt.tokens]
    exact .held _ (.parens ho hc hderives.alike ih.braces)
  | doLoop _ hwhile ho hc hsemicolon hderives _ ih =>
    have hend := Alike.parens ho hc hderives.alike (.sign hsemicolon (by decide) .nil)
    simp only [Form.tokens, allTokens, List.append_nil, Stmt.tokens]
    exact .held _ (ih.braces.append (.sign hwhile (by decide) hend))
  | forLoop _ ho hfirst hsecond hc hstart hcondition hstep _ ih =>
    have htests := hcondition.alike.append (.sign hsecond (by decide) hstep.alike)
    have hheader := hstart.alike.append (.sign hfirst (by decide) htests)
    simp only [Form.tokens, allTokens, List.append_nil, Stmt.tokens]
    exact .held _ (.parens ho hc hheader ih.braces)
  | only ho hc _ hderives _ ih =>
    rw [Form.tokens, Alternatives.tokens, List.append_nil]
    exact .parens ho hc hderives.alike ih.braces
  | otherwise ho hc helse _ hderives _ _ ih ih' =>
    exact .parens ho hc hderives.alike (ih.braces.append (.held _ ih'.braces))
  | elseIf ho hc helse hif hderives _ _ ih ih' =>
    exact .parens ho hc hderives.alike (ih.braces.append (.sign helse (by decide) (.held _ ih')))

end Stmt

theorem Token.same_typeName {type : Token} (h : type.kind = .typeName) :
    type.Same (.made .typeName (VarType.ofName type.text).name) := by
  refine ⟨h, ?_, fun _ => (VarType.ofName_name_ofName type.text).symm⟩
  rintro (htext | hnumber)
  · cases h.symm.trans htext
  · cases h.symm.trans hnumber

theorem WritesParams.alike {ts : List Token} {params : List Param} (h : WritesParams ts params) :
    Alike ts (Param.allTokens params) := by
  induction h with
  | last hkind _ _ _ => exact .same (Token.same_typeName hkind) (.held _ .nil)
  | @cons type name comma ts params hkind _ _ _ hcomma hmore ih =>
    cases params with
    | nil => cases hmore
    | cons p params =>
      exact .same (Token.same_typeName hkind) (.held _ (.sign hcomma (by decide) ih))

theorem WritesResult.alike {ts : List Token} {type : VarType} (h : WritesResult ts type) :
    Alike ts type.resultTokens := by
  cases h with
  | nothing => exact .nil
  | type hsign htype =>
    unfold VarType.resultTokens
    split
    next hvoid => exact .void hsign htype hvoid .nil
    next => exact .sign hsign (by decide) (.same (Token.same_typeName htype) .nil)

theorem WritesBody.alike {fn : Text} {ts : List Token} {body? : Option (List Stmt)}
    (h : WritesBody (· = .text) fn ts body?) : Alike ts (Stmt.bodyTokens body?) := by
  cases h with
  | none hsemicolon => exact .sign hsemicolon (by decide) .nil
  | some ho hc hwrites =>
    exact (hwrites.alike.unwrap (by rw [ho]; decide) (by rw [hc]; decide)).braces

/-- What writes a declaration is like its rendering. -/
theorem WritesDecl.alike {ts : List Token} {d : Decl} (h : WritesDecl (· = .text) ts d) :
    Alike ts d.tokens := by
  cases h with
  | var _ hsemicolon hdeclares =>
    rw [Decl.tokens, hdeclares.token_eq]
    exact .held _ (hdeclares.alike.append (.sign hsemicolon (by decide) .nil))
  | field _ htype hsemicolon hdeclares =>
    have hrest := hdeclares.alike.append (.sign hsemicolon (by decide) .nil)
    rw [Decl.tokens, hdeclares.type_eq]
    exact .held _ (.same (Token.same_typeName htype) hrest)
  | @function _ _ _ _ ps _ _ params _ _ _ hname _ ho hc hparams _ hresult hbody =>
    have hparams : Alike ps (Param.allTokens params) := by
      rcases hparams with ⟨rfl, rfl⟩ | hparams
      · exact .nil
      · exact hparams.alike
    exact .held _ (.same (Token.same_text hname) (.parens ho hc hparams
      (hresult.alike.append hbody.alike)))

theorem WritesUnit.alike {ts : List Token} {ds : List Decl} (h : WritesUnit (· = .text) ts ds) :
    Alike ts (render ds) := by
  induction h with
  | nil => exact .nil
  | empty hsemicolon _ ih => exact .extra (by rw [hsemicolon]; decide) ih
  | cons hdecl _ ih =>
    rw [render, List.flatMap_cons]
    exact hdecl.alike.append ih

end TickScript
