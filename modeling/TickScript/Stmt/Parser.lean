import TickScript.Expr.Parser
import TickScript.Stmt.Basic

/-!
# Reading declarations and statements

A unit is read from the front. The tokens of a body are cut out first, by counting braces, and then
read on their own; a simple statement reaches to the next semicolon. After a mistake reading goes on
behind the statement, so one unit can have several diagnostics.
-/

namespace TickScript

/-- What the readers of one unit share. -/
structure ParseState where
  /-- How many statements have a generated name. -/
  anonymous : Nat := 0
  /-- The opening quotes of unclosed strings that were reported. -/
  quotes : List Token := []
deriving Repr

/-- The stage that reads declarations and statements. -/
abbrev Parsing := StateT ParseState Reporting

/-- Where a reader stands: in which function, and which token ends its input. -/
structure ParseContext where
  function : Text
  final : Token

/-- The context of a reader of some tokens. -/
def ParseContext.ofTokens (function : Text) (tokens : List Token) : ParseContext :=
  ⟨function, match tokens.getLast? with
    | some t => t.endAfter
    | none => .nowhere⟩

namespace Parsing

/-! ## Cutting token lists -/

/-- The tokens up to the closing token that leaves nothing open, the tokens behind it, and whether
it was found. `opening?` is the kind that nests, if any. -/
def segment (opening? : Option TokenKind) (closing : TokenKind) :
    (depth : Nat) → List Token → List Token × List Token × Bool
  | _, [] => ([], [], false)
  | depth, t :: rest =>
    if t.kind = closing && depth == 0 then ([], rest, true)
    else
      let depth :=
        if opening? = some t.kind then depth + 1
        else if t.kind = closing then depth - 1
        else depth
      let (inner, rest, closed) := segment opening? closing depth rest
      (t :: inner, rest, closed)

/-- The tokens of a block behind its opening brace. -/
def braced (tokens : List Token) : List Token × List Token × Bool :=
  segment (some .leftBrace) .rightBrace 0 tokens

/-- The tokens of a parenthesis behind its opening. -/
def parenthesised (tokens : List Token) : List Token × List Token × Bool :=
  segment (some .leftParen) .rightParen 0 tokens

/-- The parts between separators outside of any bracket. -/
def splitTop (separator : TokenKind) : (depth : Int) → List Token → List (List Token)
  | _, [] => [[]]
  | depth, t :: rest =>
    let onto (parts : List (List Token)) : List (List Token) :=
      match parts with
      | [] => [[t]]
      | part :: parts => (t :: part) :: parts
    match t.kind with
    | .leftParen | .leftBracket | .leftBrace => onto (splitTop separator (depth + 1) rest)
    | .rightParen | .rightBracket | .rightBrace => onto (splitTop separator (depth - 1) rest)
    | kind =>
      if kind = separator && depth == 0 then [] :: splitTop separator depth rest
      else onto (splitTop separator depth rest)

/-- The opening quote of a string that is not closed on its line. -/
def unclosedQuote? : List Token → Option Token
  | [] => none
  | t :: rest =>
    if t.kind ≠ .quote then unclosedQuote? rest
    else
      let closes (q : Token) : Bool := q.kind = .quote && q.line == t.line && q.file == t.file
      match rest with
      | [] => some t
      | content :: rest =>
        if content.kind = .text && content.line == t.line then
          match rest with
          | q :: rest => if closes q then unclosedQuote? rest else some t
          | [] => some t
        else if closes content then unclosedQuote? rest
        else some t

/-- The tokens behind a malformed statement: behind the next semicolon or the next block. -/
def recover : List Token → List Token
  | [] => []
  | t :: rest =>
    if t.kind = .semicolon then rest
    else if t.kind = .leftBrace then (braced rest).2.1
    else recover rest

/-! ## Reporting -/

/-- Reports that tokens ran out before they were closed. A string that swallowed the closing token
is reported in its place, once. -/
def unterminated (content : List Token) (at_ : Token) (cause : Cause) : Parsing Unit := do
  match unclosedQuote? content with
  | some quote =>
    if !(← get).quotes.contains quote then
      modify fun s => { s with quotes := quote :: s.quotes }
      report quote .unclosedString
  | none => report at_ cause

/-- The first token, or the end of input. -/
def current (ctx : ParseContext) (tokens : List Token) : Token := tokens.headD ctx.final

/-- The first token and the rest, when it has the given kind. -/
def accept (kind : TokenKind) : List Token → Option (Token × List Token)
  | [] => none
  | t :: rest => if t.kind = kind then some (t, rest) else none

/-- Like `accept`, but reports any other token. -/
def expect (ctx : ParseContext) (kind : TokenKind) (tokens : List Token) :
    Parsing (Option (Token × List Token)) := do
  match accept kind tokens with
  | some found => return some found
  | none =>
    let t := current ctx tokens
    report t (.expected kind t)
    return none

/-- Reads an expression, reporting what is wrong with it. -/
def expression (ctx : ParseContext) (tokens : List Token) : Parsing (Option Expr) := do
  match Expr.parse tokens with
  | .ok e => return some e
  | .error (.at_ d) =>
    report ⟨.endOfInput, [], d.line, d.file⟩ d.cause
    return none
  | .error .empty =>
    report ctx.final .unexpectedEnd
    return none

/-- A fresh name for a statement without one. -/
def freshName (ctx : ParseContext) (kind : String) : Parsing Text := do
  modify fun s => { s with anonymous := s.anonymous + 1 }
  return ctx.function ++ "$" ++ Text.ofString kind ++ Text.ofNat (← get).anonymous

/-! ## Declarations -/

/-- The tokens up to the next semicolon, and those behind it. -/
def statementTokens (start : Token) (tokens : List Token) :
    Parsing (Option (List Token) × List Token) := do
  let (content, rest, closed) := segment none .semicolon 0 tokens
  if closed then return (some content, rest)
  else
    unterminated content start .unclosedStatement
    return (none, rest)

/-- Reads the name and the initial value behind a type. -/
def declParts (ctx : ParseContext) (type : Token) (content : List Token) :
    Parsing (Option (Token × Option Expr)) := do
  if type.text == Text.ofString "void" then
    report type .voidVariable
    return none
  else match content with
    | [] =>
      report type (.missingName type.text)
      return none
    | name :: rest =>
      if name.kind ≠ .text || !isIdentifier name.text then
        report type (.missingName type.text)
        return none
      else match rest with
        | [] => return some (name, none)
        | sign :: init =>
          if sign.kind ≠ .assign then
            report sign (.badDeclaration name.text sign)
            return none
          else if init.isEmpty then
            report sign (.missingInitializer name.text)
            return none
          else match ← expression ctx init with
            | some e => return some (name, some e)
            | none => return none

/-- The variable with a type and a name. -/
def varDecl (ctx : ParseContext) (type name : Token) (initial? : Option Expr) : VarDecl :=
  let qualified := if ctx.function.isEmpty then name.text else Name.qualified ctx.function name.text
  ⟨name.text, Name.id qualified, type, VarType.ofName type.text, initial?⟩

/-- Reads `name [= init];` behind a type. -/
def declTail (ctx : ParseContext) (type : Token) (tokens : List Token) :
    Parsing (Option (Token × Option Expr) × List Token) := do
  let (content?, rest) ← statementTokens type tokens
  match content? with
  | none => return (none, rest)
  | some content => return (← declParts ctx type content, rest)

/-- Reads a variable behind its type. -/
def variable_ (ctx : ParseContext) (type : Token) (tokens : List Token) :
    Parsing (Option VarDecl × List Token) := do
  let (parts?, rest) ← declTail ctx type tokens
  return (parts?.map fun parts => varDecl ctx type parts.1 parts.2, rest)

/-- Reads a variable whose type stands in front. -/
def typedVariable (ctx : ParseContext) : List Token → Parsing (Option VarDecl × List Token)
  | [] => breakDown .outOfRange
  | type :: tokens => variable_ ctx type tokens

/-! ## Statements -/

/-- Reads a return behind its word. -/
def return_ (ctx : ParseContext) (word : Token) (tokens : List Token) :
    Parsing (Option Stmt × List Token) := do
  let (content?, rest) ← statementTokens word tokens
  match content? with
  | none => return (none, rest)
  | some content =>
    let name ← freshName ctx "return"
    if content.isEmpty then return (some (.expr name word .return_ none), rest)
    else match ← expression ctx content with
      | some e => return (some (.expr name word .return_ (some e)), rest)
      | none => return (none, rest)

/-- Reads an expression statement. -/
def exprStatement (ctx : ParseContext) (start : Token) (tokens : List Token) :
    Parsing (Option Stmt × List Token) := do
  let (content?, rest) ← statementTokens start tokens
  match content? with
  | none => return (none, rest)
  | some content =>
    if content.isEmpty then return (none, rest)
    else match ← expression ctx content with
      | some e => return (some (.expr (← freshName ctx "expr") start e.kind (some e)), rest)
      | none => return (none, rest)

/-- Reads a condition in parentheses. -/
def condition (ctx : ParseContext) (word : Token) (tokens : List Token) :
    Parsing (Option Expr × List Token) := do
  match ← expect ctx .leftParen tokens with
  | none => return (none, tokens)
  | some (_, tokens) =>
    let (content, rest, closed) := parenthesised tokens
    if !closed then
      unterminated content word (.unclosedCondition word.text)
      return (none, rest)
    else if content.isEmpty then
      report word (.emptyCondition word.text)
      return (none, rest)
    else return (← expression ctx content, rest)

/-- Reads what a for header starts with. -/
def forStart (ctx : ParseContext) : List Token → Parsing (Option LoopStart)
  | [] => return some .nothing
  | first :: rest => do
    if first.kind = .typeName then
      match ← declParts ctx first rest with
      | some (name, value) => return some (.declare (varDecl ctx first name value))
      | none => return none
    else return (← expression ctx (first :: rest)).map .evaluate

/-- Reads a part of a for header that may be empty. -/
def optionalExpression (ctx : ParseContext) (tokens : List Token) :
    Parsing (Option (Option Expr)) := do
  if tokens.isEmpty then return some none
  else return (← expression ctx tokens).map some

/-- Reads the parts of a for header: what it starts with, its condition and its step. -/
def forHeader (ctx : ParseContext) (init cond step : List Token) :
    Parsing (Option (LoopStart × Option Expr × Option Expr)) := do
  match ← forStart ctx init with
  | none => return none
  | some start =>
    match ← optionalExpression ctx cond with
    | none => return none
    | some cond? => return (← optionalExpression ctx step).map fun step? => (start, cond?, step?)

mutual

/-- Reads all statements of some tokens. -/
def statements (ctx : ParseContext) : (fuel : Nat) → List Token → Parsing (List Stmt)
  | 0, _ => return []
  | _, [] => return []
  | fuel + 1, tokens => do
    let (first, rest) ← statement ctx fuel tokens
    return first ++ (← statements ctx fuel rest)

/-- Reads one statement; a block yields its statements. -/
def statement (ctx : ParseContext) : (fuel : Nat) → List Token → Parsing (List Stmt × List Token)
  | 0, tokens => return ([], tokens)
  | _, [] => return ([], [])
  | fuel + 1, t :: rest => do
    match t.kind with
    | .typeName =>
      let (decl?, rest) ← typedVariable ctx (t :: rest)
      return (decl?.toList.map Stmt.declare, rest)
    | .ifWord =>
      let name ← freshName ctx "if"
      let (branch?, rest) ← branch ctx fuel t rest
      return ((branch?.map fun (cond, body, alternatives) =>
        Stmt.ifElse name t cond body alternatives).toList, rest)
    | .doWord =>
      let (loop?, rest) ← doLoop ctx fuel t rest
      return (loop?.toList, rest)
    | .whileWord =>
      let (loop?, rest) ← whileLoop ctx fuel t rest
      return (loop?.toList, rest)
    | .forWord =>
      let (loop?, rest) ← forLoop ctx fuel t rest
      return (loop?.toList, rest)
    | .returnWord =>
      let (stmt?, rest) ← return_ ctx t rest
      return (stmt?.toList, rest)
    | .leftBrace =>
      let (body, rest, closed) := braced rest
      if !closed then unterminated body t .unclosedBlock
      return (← statements (.ofTokens ctx.function body) fuel body, rest)
    | .semicolon => return ([], rest)
    | .define | .field =>
      report t (.notInsideFunction t.text)
      return ([], recover (t :: rest))
    | .elseWord =>
      report t .elseWithoutIf
      return ([], recover rest)
    | _ =>
      let (stmt?, rest) ← exprStatement ctx t (t :: rest)
      return (stmt?.toList, rest)

/-- Reads the body of a branch or loop: a block or a single statement. -/
def branchBody (ctx : ParseContext) (fuel : Nat) (word : Token) (tokens : List Token) :
    Parsing (List Stmt × List Token) := do
  match fuel with
  | 0 => return ([], tokens)
  | fuel + 1 =>
    match tokens with
    | [] =>
      report word (.missingBody word.text)
      return ([], [])
    | t :: rest =>
      if t.kind = .leftBrace then
        let (body, rest, closed) := braced rest
        if !closed then unterminated body t (.unclosedBody word.text)
        return (← statements (.ofTokens ctx.function body) fuel body, rest)
      else statement ctx fuel tokens

/-- Reads the condition and the body of a branch, and the branches behind it. -/
def branch (ctx : ParseContext) (fuel : Nat) (word : Token) (tokens : List Token) :
    Parsing (Option (Expr × List Stmt × Alternatives) × List Token) := do
  match fuel with
  | 0 => return (none, tokens)
  | fuel + 1 =>
    match ← condition ctx word tokens with
    | (none, rest) => return (none, recover rest)
    | (some cond, rest) =>
      let (body, rest) ← branchBody ctx fuel word rest
      match accept .elseWord rest with
      | none => return (some (cond, body, .none), rest)
      | some (elseToken, rest) =>
        let name ← freshName ctx "else"
        match accept .ifWord rest with
        | some (ifToken, rest) =>
          let (next?, rest) ← branch ctx fuel ifToken rest
          return (next?.map fun (cond', body', more) =>
            (cond, body, .elseIf name ifToken cond' body' more), rest)
        | none =>
          let (elseBody, rest) ← branchBody ctx fuel elseToken rest
          return (some (cond, body, .otherwise name elseToken elseBody), rest)

/-- Reads a do loop behind its word. -/
def doLoop (ctx : ParseContext) (fuel : Nat) (word : Token) (tokens : List Token) :
    Parsing (Option Stmt × List Token) := do
  match fuel with
  | 0 => return (none, tokens)
  | fuel + 1 =>
    let name ← freshName ctx "do"
    let (body, rest) ← branchBody ctx fuel word tokens
    match ← expect ctx .whileWord rest with
    | none => return (none, recover rest)
    | some (whileToken, rest) =>
      match ← condition ctx whileToken rest with
      | (none, rest) => return (none, recover rest)
      | (some cond, rest) =>
        match ← expect ctx .semicolon rest with
        | none => return (none, rest)
        | some (_, rest) =>
          return (some (.loop name word .doWhile (some cond) none .nothing body), rest)

/-- Reads a while loop behind its word. -/
def whileLoop (ctx : ParseContext) (fuel : Nat) (word : Token) (tokens : List Token) :
    Parsing (Option Stmt × List Token) := do
  match fuel with
  | 0 => return (none, tokens)
  | fuel + 1 =>
    let name ← freshName ctx "while"
    match ← condition ctx word tokens with
    | (none, rest) => return (none, recover rest)
    | (some cond, rest) =>
      let (body, rest) ← branchBody ctx fuel word rest
      return (some (.loop name word .while_ (some cond) none .nothing body), rest)

/-- Reads a for loop behind its word. -/
def forLoop (ctx : ParseContext) (fuel : Nat) (word : Token) (tokens : List Token) :
    Parsing (Option Stmt × List Token) := do
  match fuel with
  | 0 => return (none, tokens)
  | fuel + 1 =>
    let name ← freshName ctx "for"
    match ← expect ctx .leftParen tokens with
    | none => return (none, recover tokens)
    | some (_, tokens) =>
      let (header, rest, closed) := parenthesised tokens
      if !closed then
        unterminated header word .unclosedHeader
        return (none, rest)
      else match splitTop .semicolon 0 header with
        | [init, cond, step] =>
          match ← forHeader ctx init cond step with
          | none => return (none, rest)
          | some (start, cond?, step?) =>
            let (body, rest) ← branchBody ctx fuel word rest
            return (some (.loop name word .for_ cond? step? start body), rest)
        | parts =>
          report word (.badHeader (parts.length - 1))
          let (_, rest) ← branchBody ctx fuel word rest
          return (none, rest)

end

/-- Reads all statements of the body of a function. -/
def body (function : Text) (tokens : List Token) : Parsing (List Stmt) :=
  statements (.ofTokens function tokens) (8 * tokens.length + 8) tokens

/-! ## The top of a unit -/

/-- Reads the parameters of a function. -/
def parameters (word name : Token) : List (List Token) → Parsing (Option (List Param))
  | [] => return some []
  | part :: rest => do
    match part with
    | [type, param] =>
      if type.kind ≠ .typeName || param.kind ≠ .text || !isIdentifier param.text then
        report word (.badParameters name.text)
        return none
      else
        let t := VarType.ofName type.text
        if t = .void then
          report type (.voidParameter param.text)
          return none
        else return (← parameters word name rest).map (⟨param, t, param.text⟩ :: ·)
    | _ =>
      report word (.badParameters name.text)
      return none

/-- The most parameters of a function. -/
def maxParameters : Nat := 255

/-- Reads the return type of a function. Without one the function has no result. -/
def returnType (ctx : ParseContext) (tokens : List Token) :
    Parsing (Option VarType × List Token) := do
  match accept .assign tokens with
  | none => return (some .void, tokens)
  | some (_, tokens) =>
    match ← expect ctx .typeName tokens with
    | some (type, tokens) => return (some (VarType.ofName type.text), tokens)
    | none => return (none, recover tokens)

/-- Reads what follows the header of a function: a semicolon or the body. -/
def functionEnd (ctx : ParseContext) (announced : FuncDecl) (tokens : List Token) :
    Parsing (Option FuncDecl × List Token) := do
  match accept .semicolon tokens with
  | some (_, rest) => return (some announced, rest)
  | none =>
    match ← expect ctx .leftBrace tokens with
    | none => return (none, recover tokens)
    | some (opening, tokens) =>
      let (inner, rest, closed) := braced tokens
      if !closed then unterminated inner opening (.unclosedFunction announced.name)
      let stmts ← body announced.name inner
      return (some { announced with body? := some stmts }, rest)

/-- Reads the return type of a function and what follows it. -/
def functionTail (ctx : ParseContext) (word name : Token) (params : List Param)
    (tokens : List Token) : Parsing (Option FuncDecl × List Token) := do
  let (type?, tokens) ← returnType ctx tokens
  match type? with
  | none => return (none, tokens)
  | some type => functionEnd ctx ⟨name.text, word, params, type, none⟩ tokens

/-- Reads a function behind its word. -/
def function (ctx : ParseContext) (word : Token) (tokens : List Token) :
    Parsing (Option FuncDecl × List Token) := do
  match accept .text tokens with
  | none =>
    report word .missingFunctionName
    return (none, recover tokens)
  | some (name, tokens) =>
    if !isIdentifier name.text then
      report word .missingFunctionName
      return (none, recover tokens)
    else match ← expect ctx .leftParen tokens with
      | none => return (none, recover tokens)
      | some (_, tokens) =>
        let (inner, rest, closed) := parenthesised tokens
        if !closed then
          unterminated inner word (.unclosedParameters name.text)
          return (none, rest)
        else
          let params? ←
            if inner.isEmpty then pure (some []) else parameters word name (splitTop .comma 0 inner)
          match params? with
          | none => return (none, rest)
          | some params =>
            if maxParameters < params.length then report word (.tooManyParameters name.text)
            functionTail ctx word name params rest

/-- Reads a field behind its word. -/
def field (ctx : ParseContext) (word : Token) (tokens : List Token) :
    Parsing (Option VarDecl × List Token) := do
  match ← expect ctx .typeName tokens with
  | none => return (none, recover tokens)
  | some (type, tokens) =>
    let (parts?, rest) ← declTail ctx type tokens
    return (parts?.map fun parts => { varDecl ctx type parts.1 parts.2 with token := word }, rest)

/-- Reads one declaration, or passes over what is none. -/
def declaration (ctx : ParseContext) (t : Token) (rest : List Token) :
    Parsing (Option Decl × List Token) := do
  match t.kind with
  | .define =>
    let (f?, rest) ← function ctx t rest
    return (f?.map Decl.function, rest)
  | .field =>
    let (d?, rest) ← field ctx t rest
    return (d?.map Decl.field, rest)
  | .typeName =>
    let (d?, rest) ← typedVariable ctx (t :: rest)
    return (d?.map Decl.var, rest)
  | .semicolon => return (none, rest)
  | .ifWord | .elseWord | .doWord | .whileWord | .forWord | .returnWord =>
    report t (.statementOutside t.text)
    return (none, recover rest)
  | _ =>
    report t (.unexpectedAtTop t)
    return (none, recover (t :: rest))

/-- Reads the declarations of a unit. Every declaration takes at least one token. -/
def declarations (ctx : ParseContext) : (fuel : Nat) → List Token → Parsing (List Decl)
  | 0, _ => return []
  | _, [] => return []
  | fuel + 1, t :: rest => do
    let (decl?, rest) ← declaration ctx t rest
    return decl?.toList ++ (← declarations ctx fuel rest)

/-- Reads a whole unit. -/
def program (tokens : List Token) : Parsing (List Decl) :=
  declarations (.ofTokens [] tokens) tokens.length tokens

end Parsing

end TickScript
