import TickScript.Token.Basic

/-!
# From text to tokens

Scanning goes line by line; the only thing carried from one line to the next is whether a block
comment is open. Nothing is rejected: a string without its closing quote ends with its line, and a
run of characters that is no number and no keyword becomes a text token.
-/

namespace TickScript

open TickScript.Text

/-- What a backslash and a byte stand for. -/
def escaped (b : UInt8) : UInt8 :=
  match Char.ofNat b.toNat with
  | 'n' => 0x0A
  | 't' => 0x09
  | 'r' => 0x0D
  | '0' => 0x00
  | _ => b

/-- A text with its escapes resolved; a backslash at the very end stays. -/
def resolveEscapes : Text → Text
  | [] => []
  | [b] => [b]
  | b :: c :: t => if b == 0x5C then escaped c :: resolveEscapes t else b :: resolveEscapes (c :: t)

/-- Whether a run is a number: digits with at most one point. -/
def isNumeral (t : Text) : Bool :=
  t.all (fun b => isDigit b || b == 0x2E) && t.any isDigit && t.count 0x2E ≤ 1

/-- The token of a run of characters. -/
def classify (line : Int) (run : Text) : Token :=
  if isNumeral run then ⟨.number, run, line, []⟩
  else match TokenKind.keywords.find? fun entry => equalFold entry.1 run with
    | some (word, kind) => ⟨kind, word, line, []⟩
    | none => ⟨.text, resolveEscapes run, line, []⟩

/-- A blank inside a line. -/
def isBlank (b : UInt8) : Bool :=
  b == 0x20 || b == 0x09 || b == 0x0D || b == 0x0C || b == 0x0B

/-- Where the scanner stands within a line. -/
inductive ScanMode where
  /-- In code: the run read so far, last byte first, and whether the last token is a sign that ends
  right here. -/
  | code (run : Text) (adjacent : Bool)
  /-- In a block comment. -/
  | comment
  /-- In a string: its content so far, last byte first. -/
  | string (content : Text)
deriving DecidableEq, Repr

/-- The tokens with those of a finished run in front; tokens are kept last first. -/
def flush (line : Int) (run : Text) (tokens : List Token) : List Token :=
  if run.isEmpty then tokens else classify line run.reverse :: tokens

/-- The tokens with a sign in front, which joins the sign before it when there is no gap. The answer
also says whether the next sign may join this one. -/
def addSign (line : Int) (b : UInt8) (kind : TokenKind) (adjacent : Bool) (tokens : List Token) :
    List Token × Bool :=
  let alone := (⟨kind, [b], line, []⟩ :: tokens, true)
  match adjacent, tokens with
  | true, last :: rest =>
    match TokenKind.joined? last.kind kind with
    | some operator => ({ last with kind := operator, text := last.text ++ [b] } :: rest, false)
    | none => alone
  | _, _ => alone

/-- The quote token of a line. -/
def quoteToken (line : Int) : Token := ⟨.quote, [0x22], line, []⟩

/-- The tokens with the content of a string in front; an empty content leaves no token. -/
def addContent (line : Int) (content : Text) (tokens : List Token) : List Token :=
  if content.isEmpty then tokens else ⟨.text, content.reverse, line, []⟩ :: tokens

/-- Scans the rest of a line. Answers the tokens, last first, and whether a comment stays open. -/
def scanRest (line : Int) : ScanMode → List Token → Text → List Token × Bool
  | .code run _, tokens, [] => (flush line run tokens, false)
  | .comment, tokens, [] => (tokens, true)
  | .string content, tokens, [] => (addContent line content tokens, false)
  | .comment, tokens, 0x2A :: 0x2F :: t => scanRest line (.code [] false) tokens t
  | .comment, tokens, _ :: t => scanRest line .comment tokens t
  | .string content, tokens, 0x5C :: c :: t =>
    scanRest line (.string (escaped c :: content)) tokens t
  | .string content, tokens, 0x22 :: t =>
    scanRest line (.code [] false) (quoteToken line :: addContent line content tokens) t
  | .string content, tokens, b :: t => scanRest line (.string (b :: content)) tokens t
  | .code run _, tokens, 0x2F :: 0x2F :: _ => (flush line run tokens, false)
  | .code run _, tokens, 0x2F :: 0x2A :: t => scanRest line .comment (flush line run tokens) t
  | .code run _, tokens, 0x22 :: t =>
    scanRest line (.string []) (quoteToken line :: flush line run tokens) t
  | .code run adjacent, tokens, b :: t =>
    if isBlank b then scanRest line (.code [] false) (flush line run tokens) t
    else match TokenKind.ofSign? b with
      | some kind =>
        let added := addSign line b kind adjacent (flush line run tokens)
        scanRest line (.code [] added.2) added.1 t
      | none => scanRest line (.code (b :: run) false) tokens t

/-- A line without the carriage return at its end. -/
def dropReturn (line : Text) : Text :=
  if line.getLast? == some 0x0D then line.dropLast else line

/-- The tokens of one line, and whether a comment stays open. -/
def scanLine (inComment : Bool) (number : Int) (line : Text) : List Token × Bool :=
  let mode : ScanMode := if inComment then .comment else .code [] false
  let (tokens, open_) := scanRest number mode [] (dropReturn line)
  (tokens.reverse, open_)

/-- The tokens of some numbered lines, line by line. -/
def scanLines : (inComment : Bool) → List (Int × Text) → List (List Token)
  | _, [] => []
  | inComment, (number, line) :: rest =>
    let (tokens, inComment) := scanLine inComment number line
    tokens :: scanLines inComment rest

/-- The lines of a text with their numbers, from one on. -/
def numberedLines (source : Text) : List (Int × Text) :=
  (splitOn 0x0A source).zipIdx.map fun (line, index) => ((index : Int) + 1, line)

/-- The tokens of a whole text. -/
def tokenize (source : Text) : List Token := (scanLines false (numberedLines source)).flatten

end TickScript
