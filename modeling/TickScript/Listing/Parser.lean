import TickScript.Listing.Lexer

/-!
# The grammar of listings

A listing is read lexeme by lexeme, and the error is the first lexeme that cannot continue what was
read. One lexeme is looked at ahead: an opening bracket with neither an integer nor the closing
bracket behind it opens nothing, so the bracket itself is the error. Only right behind a mnemonic is
it the lexeme behind the bracket.
-/

namespace TickScript.Listing

/-- Refuses the first lexeme; `last` stands in at the end. -/
def refuse {α : Type} (last : Place) (tokens : List Lexeme) : Except GrammarError α :=
  .error (.badLexeme ((tokens.head?.map (·.place)).getD last))

/-- The text of the first lexeme when it is of one of some kinds. -/
def take (last : Place) (kinds : List LexemeKind) :
    List Lexeme → Except GrammarError (Text × List Lexeme)
  | [] => refuse last []
  | t :: rest => if kinds.contains t.kind then .ok (t.text, rest) else refuse last (t :: rest)

/-- Whether a lexeme is a certain bracket. -/
def Lexeme.isBracket (bracket : Text) (t : Lexeme) : Bool :=
  t.kind == .bracket && t.text == bracket

/-- The integers of a byte list behind its opening bracket, up to its closing one. -/
def byteItems (last : Place) : List Lexeme → Except GrammarError (List Text × List Lexeme)
  | [] => refuse last []
  | t :: rest =>
    if t.kind = .int then do
      let (items, rest) ← byteItems last rest
      .ok (t.text :: items, rest)
    else if t.isBracket "]" then .ok ([], rest)
    else refuse last (t :: rest)

/-- Whether lexemes go on with a byte list behind its opening bracket. -/
def opensBytes : List Lexeme → Bool
  | [] => false
  | t :: _ => t.kind == .int || t.isBracket "]"

/-- The argument that starts with a lexeme, if one does. -/
def argument? (last : Place) :
    List Lexeme → Except GrammarError (Option (PlacedArgument × List Lexeme))
  | [] => .ok none
  | t :: rest =>
    match t.kind with
    | .int => .ok (some (⟨t.place, .int t.text⟩, rest))
    | .float => .ok (some (⟨t.place, .float t.text⟩, rest))
    | .string => .ok (some (⟨t.place, .string t.text⟩, rest))
    | .ident => .ok (some (⟨t.place, .ident t.text⟩, rest))
    | .bracket =>
      if t.isBracket "[" && opensBytes rest then do
        let (items, rest) ← byteItems last rest
        .ok (some (⟨t.place, .bytes items⟩, rest))
      else .ok none
    | _ => .ok none

/-- The arguments in front of something else. -/
def arguments (last : Place) :
    (fuel : Nat) → List Lexeme → Except GrammarError (List PlacedArgument × List Lexeme)
  | 0, tokens => .ok ([], tokens)
  | fuel + 1, tokens => do
    match ← argument? last tokens with
    | none => .ok ([], tokens)
    | some (argument, rest) =>
      let (more, rest) ← arguments last fuel rest
      .ok (argument :: more, rest)

/-- The lexemes behind the line of an instruction with some arguments. -/
def lineEnd (last : Place) (args : List PlacedArgument) (tokens : List Lexeme) :
    Except GrammarError (List Lexeme) :=
  match args, tokens with
  | [], t :: rest =>
    if t.isBracket "[" then refuse last rest else (take last [.endOfLine] tokens).map (·.2)
  | _, _ => (take last [.endOfLine] tokens).map (·.2)

/-- The lines of a function. -/
def lines (last : Place) :
    (fuel : Nat) → List Lexeme → Except GrammarError (List Line × List Lexeme)
  | 0, tokens => .ok ([], tokens)
  | _, [] => .ok ([], [])
  | fuel + 1, t :: rest =>
    match t.kind with
    | .endOfLine => lines last fuel rest
    | .label => do
      let (more, rest) ← lines last fuel rest
      .ok (.label t.place t.text.dropLast :: more, rest)
    | .ident => do
      let (args, rest) ← arguments last rest.length rest
      let rest ← lineEnd last args rest
      let (more, rest) ← lines last fuel rest
      .ok (.instr ⟨t.place, t.text, args⟩ :: more, rest)
    | _ => .ok ([], t :: rest)

/-- A field or variable behind its directive. -/
def global (last place : Place) (isField : Bool) (tokens : List Lexeme) :
    Except GrammarError (Item × List Lexeme) := do
  let (name, rest) ← take last [.ident, .int] tokens
  let (type, rest) ← take last [.ident] rest
  let (value?, rest) ← match ← argument? last rest with
    | some (value, rest) => pure (some value.argument, rest)
    | none => pure (none, rest)
  let (_, rest) ← take last [.endOfLine] rest
  return (.global place isField name type value?, rest)

/-- A function behind its directive. -/
def function (last place : Place) (tokens : List Lexeme) :
    Except GrammarError (Item × List Lexeme) := do
  let (name, rest) ← take last [.ident, .int] tokens
  let (params, rest) ← take last [.int] rest
  let (returns, rest) ← take last [.ident] rest
  let (_, rest) ← take last [.endOfLine] rest
  let (body, rest) ← lines last rest.length rest
  return (.function place name params returns body, rest)

/-- The declarations of a listing. -/
def items (last : Place) : (fuel : Nat) → List Lexeme → Except GrammarError (List Item)
  | 0, _ => .ok []
  | _, [] => .ok []
  | fuel + 1, t :: rest => do
    if t.kind = .endOfLine then items last fuel rest
    else
      let (item, rest) ←
        if t.text == Text.ofString ".field" then global last t.place true rest
        else if t.text == Text.ofString ".var" then global last t.place false rest
        else if t.text == Text.ofString ".func" then function last t.place rest
        else refuse last (t :: rest)
      return item :: (← items last fuel rest)

/-- The declarations of a text. -/
def parse (source : Text) : Except GrammarError (List Item) := do
  let tokens ← lexemes source
  let last := (tokens.getLast?.map (·.place)).getD ⟨1, 1⟩
  items last tokens.length tokens

end TickScript.Listing
