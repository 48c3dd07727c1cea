import TickScript.Proofs.Expr.Grammar
import TickScript.Stmt.Parser

/-!
# Ways to write a program

`Writes content fn ts form` says that the tokens `ts` write statements of the function `fn`, and
`WritesUnit` the same for the declarations of a unit. The rules are those of a plain rendering, one
for each form of statement, with the freedom that a writer has: an empty statement may stand
anywhere, statements may be grouped in braces, a body of one statement needs none, expressions take
any parentheses that the grammar of expressions allows, and a function without a result may say so.

A statement is written in front of something, and the kind of that token is part of the form: an if
without an else is never written in front of one, so an else belongs to the nearest if that lacks
it. Generated names are free.

`Form` has one case for each thing that a reader answers: statements, a single statement, and the
branches behind a condition. That the following token is part of it is needed for one rule only, the
one about `else`, but it has to be carried through all others.
-/

namespace TickScript

/-- The kind of the next token. -/
def nextKind (tokens : List Token) : Option TokenKind := tokens.head?.map (·.kind)

@[simp] theorem nextKind_cons (t : Token) (rest : List Token) :
    nextKind (t :: rest) = some t.kind := rfl

theorem nextKind_append {ts : List Token} (h : ts ≠ []) (rest : List Token) :
    nextKind (ts ++ rest) = nextKind ts := by
  cases ts with
  | nil => exact absurd rfl h
  | cons t ts => rfl

namespace Stmt

/-- What a stretch of tokens is read as; `next` is the kind of the token behind it. -/
inductive Form where
  | block (stmts : List Stmt)
  | one (next : Option TokenKind) (stmts : List Stmt)
  /-- A condition with its body and the branches behind it. -/
  | branch (next : Option TokenKind) (condition : Expr) (body : List Stmt) (rest : Alternatives)

/-- The variable that a function declares with a type and a name; outside of functions the name of
the function is empty. -/
def declared (fn : Text) (type name : Token) (initial? : Option Expr) : VarDecl :=
  ⟨name.text, Name.id (if fn.isEmpty then name.text else Name.qualified fn name.text), type,
    VarType.ofName type.text, initial?⟩

/-- The tokens behind a type declare a variable. -/
inductive Declares (content : TokenKind → Prop) (fn : Text) (type : Token) :
    List Token → VarDecl → Prop
  | plain {name : Token} : type.text ≠ Text.ofString "void" → name.kind = .text →
      isIdentifier name.text = true → Declares content fn type [name] (declared fn type name none)
  | initial {name sign : Token} {ts : List Token} {e : Expr} : type.text ≠ Text.ofString "void" →
      name.kind = .text → isIdentifier name.text = true → sign.kind = .assign →
      Expr.Derives content 1 ts e →
      Declares content fn type (name :: sign :: ts) (declared fn type name (some e))

/-- The tokens start a for loop. -/
inductive Starts (content : TokenKind → Prop) (fn : Text) : List Token → LoopStart → Prop
  /-- The loop starts with nothing. -/
  | nothing : Starts content fn [] .nothing
  /-- The loop declares a variable. -/
  | declare {type : Token} {ts : List Token} {d : VarDecl} : type.kind = .typeName →
      Declares content fn type ts d → Starts content fn (type :: ts) (.declare d)
  /-- The loop evaluates an expression. -/
  | evaluate {ts : List Token} {e : Expr} : Expr.Derives content 1 ts e →
      Starts content fn ts (.evaluate e)

/-- The tokens are an expression, or none. -/
inductive Maybe (content : TokenKind → Prop) : List Token → Option Expr → Prop
  | none : Maybe content [] none
  | some {ts : List Token} {e : Expr} : Expr.Derives content 1 ts e → Maybe content ts (some e)

/-- The tokens write statements. -/
inductive Writes (content : TokenKind → Prop) (fn : Text) : List Token → Form → Prop
  /-- No tokens write no statements. -/
  | nil : Writes content fn [] (.block [])
  /-- Statements behind others; what the first of them is read as depends on the token that follows.
  -/
  | cons {ts rest : List Token} {ss more : List Stmt} :
      Writes content fn ts (.one (nextKind rest) ss) → Writes content fn rest (.block more) →
      Writes content fn (ts ++ rest) (.block (ss ++ more))
  /-- A declaration with its type in front. -/
  | declare {type semicolon : Token} {ts : List Token} {d : VarDecl} {next : Option TokenKind} :
      type.kind = .typeName → semicolon.kind = .semicolon → Declares content fn type ts d →
      Writes content fn (type :: (ts ++ [semicolon])) (.one next [.declare d])
  /-- An expression with a semicolon behind it. -/
  | effect {start semicolon : Token} {ts : List Token} {e : Expr} {name : Text}
      {next : Option TokenKind} : ts.head? = some start → semicolon.kind = .semicolon →
      Expr.Derives content 1 ts e →
      Writes content fn (ts ++ [semicolon]) (.one next [.expr name start e.kind (some e)])
  /-- A return with a value or without one. -/
  | return_ {word semicolon : Token} {ts : List Token} {e? : Option Expr} {name : Text}
      {next : Option TokenKind} : word.kind = .returnWord → semicolon.kind = .semicolon →
      Maybe content ts e? →
      Writes content fn (word :: (ts ++ [semicolon])) (.one next [.expr name word .return_ e?])
  /-- A semicolon alone. -/
  | empty {semicolon : Token} {next : Option TokenKind} : semicolon.kind = .semicolon →
      Writes content fn [semicolon] (.one next [])
  /-- Statements in braces. -/
  | braces {opening closing : Token} {ts : List Token} {ss : List Stmt} {next : Option TokenKind} :
      opening.kind = .leftBrace → closing.kind = .rightBrace → Writes content fn ts (.block ss) →
      Writes content fn (opening :: (ts ++ [closing])) (.one next ss)
  /-- The word and a chain of branches. -/
  | ifElse {word : Token} {ts : List Token} {condition : Expr} {body : List Stmt}
      {rest : Alternatives} {name : Text} {next : Option TokenKind} : word.kind = .ifWord →
      Writes content fn ts (.branch next condition body rest) →
      Writes content fn (word :: ts) (.one next [.ifElse name word condition body rest])
  /-- A loop that tests first. -/
  | whileLoop {word opening closing : Token} {c ts : List Token} {condition : Expr}
      {body : List Stmt} {name : Text} {next : Option TokenKind} : word.kind = .whileWord →
      opening.kind = .leftParen → closing.kind = .rightParen → Expr.Derives content 1 c condition →
      Writes content fn ts (.one next body) →
      Writes content fn (word :: opening :: (c ++ closing :: ts))
        (.one next [.loop name word .while_ (some condition) none .nothing body])
  /-- A loop that tests last, with a semicolon at its end. -/
  | doLoop {word whileWord opening closing semicolon : Token} {c ts : List Token}
      {condition : Expr} {body : List Stmt} {name : Text} {next : Option TokenKind} :
      word.kind = .doWord → whileWord.kind = .whileWord → opening.kind = .leftParen →
      closing.kind = .rightParen → semicolon.kind = .semicolon →
      Expr.Derives content 1 c condition →
      Writes content fn ts (.one (some .whileWord) body) →
      Writes content fn (word :: (ts ++ whileWord :: opening :: (c ++ [closing, semicolon])))
        (.one next [.loop name word .doWhile (some condition) none .nothing body])
  /-- A loop with a header of three parts, each of which may be empty. -/
  | forLoop {word opening first second closing : Token} {init c step ts : List Token}
      {start : LoopStart} {condition? step? : Option Expr} {body : List Stmt} {name : Text}
      {next : Option TokenKind} : word.kind = .forWord → opening.kind = .leftParen →
      first.kind = .semicolon → second.kind = .semicolon → closing.kind = .rightParen →
      Starts content fn init start → Maybe content c condition? → Maybe content step step? →
      Writes content fn ts (.one next body) →
      Writes content fn
        (word :: opening :: (init ++ first :: (c ++ second :: step) ++ closing :: ts))
        (.one next [.loop name word .for_ condition? step? start body])
  /-- A branch without an else; none may follow, or it would belong here. -/
  | only {opening closing : Token} {c ts : List Token} {condition : Expr} {body : List Stmt}
      {next : Option TokenKind} : opening.kind = .leftParen → closing.kind = .rightParen →
      next ≠ some .elseWord → Expr.Derives content 1 c condition →
      Writes content fn ts (.one next body) →
      Writes content fn (opening :: (c ++ closing :: ts)) (.branch next condition body .none)
  /-- A branch with an else and a body. -/
  | otherwise {opening closing elseWord : Token} {c ts us : List Token} {condition : Expr}
      {body other : List Stmt} {name : Text} {next : Option TokenKind} :
      opening.kind = .leftParen → closing.kind = .rightParen → elseWord.kind = .elseWord →
      nextKind us ≠ some .ifWord → Expr.Derives content 1 c condition →
      Writes content fn ts (.one (some .elseWord) body) → Writes content fn us (.one next other) →
      Writes content fn (opening :: (c ++ closing :: (ts ++ elseWord :: us)))
        (.branch next condition body (.otherwise name elseWord other))
  /-- A branch with an else and another branch. -/
  | elseIf {opening closing elseWord ifWord : Token} {c ts us : List Token}
      {condition condition' : Expr} {body body' : List Stmt} {rest : Alternatives} {name : Text}
      {next : Option TokenKind} : opening.kind = .leftParen → closing.kind = .rightParen →
      elseWord.kind = .elseWord → ifWord.kind = .ifWord → Expr.Derives content 1 c condition →
      Writes content fn ts (.one (some .elseWord) body) →
      Writes content fn us (.branch next condition' body' rest) →
      Writes content fn (opening :: (c ++ closing :: (ts ++ elseWord :: ifWord :: us)))
        (.branch next condition body (.elseIf name ifWord condition' body' rest))

end Stmt

/-! ## Units -/

/-- The parameters between the parentheses of a function: pairs of a type and a name with commas
between them. -/
inductive WritesParams : List Token → List Param → Prop
  | last {type name : Token} : type.kind = .typeName → name.kind = .text →
      isIdentifier name.text = true → VarType.ofName type.text ≠ .void →
      WritesParams [type, name] [⟨name, VarType.ofName type.text, name.text⟩]
  | cons {type name comma : Token} {ts : List Token} {params : List Param} :
      type.kind = .typeName → name.kind = .text → isIdentifier name.text = true →
      VarType.ofName type.text ≠ .void → comma.kind = .comma → WritesParams ts params →
      WritesParams (type :: name :: comma :: ts)
        (⟨name, VarType.ofName type.text, name.text⟩ :: params)

/-- The result of a function; nothing stands for no result. -/
inductive WritesResult : List Token → VarType → Prop
  | nothing : WritesResult [] .void
  | type {sign type : Token} : sign.kind = .assign → type.kind = .typeName →
      WritesResult [sign, type] (VarType.ofName type.text)

/-- The body of a function, or a semicolon in its place. -/
inductive WritesBody (content : TokenKind → Prop) (fn : Text) :
    List Token → Option (List Stmt) → Prop
  | none {semicolon : Token} : semicolon.kind = .semicolon → WritesBody content fn [semicolon] none
  | some {opening closing : Token} {ts : List Token} {ss : List Stmt} : opening.kind = .leftBrace →
      closing.kind = .rightBrace → Stmt.Writes content fn ts (.block ss) →
      WritesBody content fn (opening :: (ts ++ [closing])) (some ss)

/-- The tokens write one declaration. -/
inductive WritesDecl (content : TokenKind → Prop) : List Token → Decl → Prop
  /-- A global variable. -/
  | var {type semicolon : Token} {ts : List Token} {d : VarDecl} : type.kind = .typeName →
      semicolon.kind = .semicolon → Stmt.Declares content [] type ts d →
      WritesDecl content (type :: (ts ++ [semicolon])) (.var d)
  /-- A field, marked by its word. -/
  | field {word type semicolon : Token} {ts : List Token} {d : VarDecl} : word.kind = .field →
      type.kind = .typeName → semicolon.kind = .semicolon → Stmt.Declares content [] type ts d →
      WritesDecl content (word :: type :: (ts ++ [semicolon])) (.field { d with token := word })
  /-- A function, announced or with its body. -/
  | function {word name opening closing : Token} {ps rs bs : List Token} {params : List Param}
      {returnType : VarType} {body? : Option (List Stmt)} : word.kind = .define →
      name.kind = .text → isIdentifier name.text = true → opening.kind = .leftParen →
      closing.kind = .rightParen → (ps = [] ∧ params = [] ∨ WritesParams ps params) →
      params.length ≤ 255 → WritesResult rs returnType → WritesBody content name.text bs body? →
      WritesDecl content (word :: name :: opening :: (ps ++ closing :: (rs ++ bs)))
        (.function ⟨name.text, word, params, returnType, body?⟩)

/-- The tokens write the declarations of a unit. -/
inductive WritesUnit (content : TokenKind → Prop) : List Token → List Decl → Prop
  /-- No declarations. -/
  | nil : WritesUnit content [] []
  /-- A semicolon on its own declares nothing. -/
  | empty {semicolon : Token} {ts : List Token} {ds : List Decl} : semicolon.kind = .semicolon →
      WritesUnit content ts ds → WritesUnit content (semicolon :: ts) ds
  /-- A declaration and what comes behind it. -/
  | cons {ts rest : List Token} {d : Decl} {ds : List Decl} : WritesDecl content ts d →
      WritesUnit content rest ds → WritesUnit content (ts ++ rest) (d :: ds)

end TickScript
