import TickScript.Text.Quoted

/-!
# Tokens

The words and signs of the language. A keyword is recognised in any case and keeps its canonical
spelling; a sign stands for itself, and two signs without a gap may form one operator.
-/

namespace TickScript

/-- What a token is. -/
inductive TokenKind where
  /-- Past the last token. -/
  | endOfInput
  | number
  /-- An identifier, the content of a string, or a run of other characters. -/
  | text
  /-- The name of a type. -/
  | typeName
  | define
  | field
  | ifWord
  | elseWord
  | doWord
  | whileWord
  | forWord
  | returnWord
  | instantiate
  | delete
  | attach
  | detach
  | null
  | attached
  | true
  | false
  | leftParen
  | rightParen
  | leftBrace
  | rightBrace
  | leftBracket
  | rightBracket
  | semicolon
  | comma
  | assign
  | plus
  | minus
  | star
  | slash
  | percent
  | ampersand
  | bar
  | caret
  | tilde
  | bang
  | less
  | greater
  | quote
  | hash
  | equal
  | notEqual
  | lessEqual
  | greaterEqual
  | andAnd
  | orOr
  | shiftLeft
  | shiftRight
  | increment
  | decrement
  | plusAssign
  | minusAssign
  | starAssign
  | slashAssign
  | percentAssign
  | ampersandAssign
  | barAssign
  | caretAssign
deriving DecidableEq, Repr, Inhabited

namespace TokenKind

/-- How a kind is named in messages: its spelling, where it has only one. -/
def name : TokenKind → String
  | endOfInput => "EOF"
  | number => "NUMBER"
  | text => "TEXT"
  | typeName => "TYPE"
  | define => "define"
  | field => "field"
  | ifWord => "if"
  | elseWord => "else"
  | doWord => "do"
  | whileWord => "while"
  | forWord => "for"
  | returnWord => "return"
  | instantiate => "instantiate"
  | delete => "delete"
  | attach => "attach"
  | detach => "detach"
  | null => "null"
  | attached => "attached"
  | true => "true"
  | false => "false"
  | leftParen => "("
  | rightParen => ")"
  | leftBrace => "\x7b"
  | rightBrace => "\x7d"
  | leftBracket => "["
  | rightBracket => "]"
  | semicolon => ";"
  | comma => ","
  | assign => "="
  | plus => "+"
  | minus => "-"
  | star => "*"
  | slash => "/"
  | percent => "%"
  | ampersand => "&"
  | bar => "|"
  | caret => "^"
  | tilde => "~"
  | bang => "!"
  | less => "<"
  | greater => ">"
  | quote => "\""
  | hash => "#"
  | equal => "=="
  | notEqual => "!="
  | lessEqual => "<="
  | greaterEqual => ">="
  | andAnd => "&&"
  | orOr => "||"
  | shiftLeft => "<<"
  | shiftRight => ">>"
  | increment => "++"
  | decrement => "--"
  | plusAssign => "+="
  | minusAssign => "-="
  | starAssign => "*="
  | slashAssign => "/="
  | percentAssign => "%="
  | ampersandAssign => "&="
  | barAssign => "|="
  | caretAssign => "^="

/-- The reserved words in their order, type names first. -/
def keywords : List (Text × TokenKind) :=
  [("void", typeName), ("object", typeName), ("string", typeName), ("float", typeName),
    ("bool", typeName), ("int", typeName), ("uint", typeName), ("define", define), ("field", field),
    ("if", ifWord), ("else", elseWord), ("do", doWord), ("while", whileWord), ("for", forWord),
    ("return", returnWord), ("instantiate", instantiate), ("delete", delete), ("attach", attach),
    ("detach", detach), ("null", null), ("attached", attached), ("true", true), ("false", false)]

/-- Whether the kind is that of a reserved word. -/
def isKeyword (k : TokenKind) : Bool := keywords.any fun entry => entry.2 = k

/-- The kind of a byte that is a token by itself. -/
def ofSign? (b : UInt8) : Option TokenKind :=
  match Char.ofNat b.toNat with
  | '(' => some leftParen
  | ')' => some rightParen
  | '\x7b' => some leftBrace
  | '\x7d' => some rightBrace
  | '[' => some leftBracket
  | ']' => some rightBracket
  | ';' => some semicolon
  | ',' => some comma
  | '=' => some assign
  | '+' => some plus
  | '-' => some minus
  | '*' => some star
  | '/' => some slash
  | '%' => some percent
  | '&' => some ampersand
  | '|' => some bar
  | '^' => some caret
  | '~' => some tilde
  | '!' => some bang
  | '<' => some less
  | '>' => some greater
  | '"' => some quote
  | '#' => some hash
  | _ => none

/-- The operator that two neighbouring signs form. -/
def joined? : TokenKind → TokenKind → Option TokenKind
  | assign, assign => some equal
  | bang, assign => some notEqual
  | less, assign => some lessEqual
  | less, less => some shiftLeft
  | greater, assign => some greaterEqual
  | greater, greater => some shiftRight
  | ampersand, ampersand => some andAnd
  | ampersand, assign => some ampersandAssign
  | bar, bar => some orOr
  | bar, assign => some barAssign
  | plus, plus => some increment
  | plus, assign => some plusAssign
  | minus, minus => some decrement
  | minus, assign => some minusAssign
  | star, assign => some starAssign
  | slash, assign => some slashAssign
  | percent, assign => some percentAssign
  | caret, assign => some caretAssign
  | _, _ => none

/-- Whether the kind names one of the operations on objects. -/
def isObjectWord : TokenKind → Bool
  | instantiate => Bool.true
  | delete => Bool.true
  | attach => Bool.true
  | detach => Bool.true
  | _ => Bool.false

end TokenKind

/-- One token with its place in the sources. -/
structure Token where
  kind : TokenKind
  text : Text
  line : Int
  file : Text := []
deriving DecidableEq, Repr, Inhabited

namespace Token

/-- The place of a keyword in the list of reserved words; -1 for any other token. -/
def keywordIndex (t : Token) : Int :=
  if t.kind.isKeyword then
    match TokenKind.keywords.findIdx? fun entry => entry.1 == t.text with
    | some i => i
    | none => -1
  else -1

/-- The longest text that a message shows in full. -/
def shownLength : Nat := 20

/-- The token as messages show it: its kind and its text, cut when long. -/
def shown (t : Token) : Text :=
  if t.kind = .endOfInput then "EOF"
  else if shownLength < t.text.length then
    Text.ofString t.kind.name ++ "(" ++ Text.quote (t.text.take shownLength) ++ "...)"
  else Text.ofString t.kind.name ++ "(" ++ Text.quote t.text ++ ")"

/-- The token for the end of input behind `t`. -/
def endAfter (t : Token) : Token := ⟨.endOfInput, [], t.line, t.file⟩

/-- The token for the end of an empty input. -/
def nowhere : Token := ⟨.endOfInput, [], 0, []⟩

end Token

/-- Whether a text can name a variable or a function: letters, digits and underscores, no digit
first. -/
def isIdentifier (t : Text) : Bool :=
  match t with
  | [] => false
  | first :: _ => !Text.isDigit first && t.all Text.isWord

end TickScript
