import TickScript.Number.Decimal
import TickScript.Text.Quoted
import TickScript.Toml.Draft
import TickScript.Toml.Moment

/-!
# Reading documents

Each reader takes the front of a text and answers what it read with the rest, or nothing when the
text is malformed. A document is UTF-8 without control characters other than tabs and line ends.
-/

namespace TickScript.Toml

open TickScript.Text

/-! ## Blanks and comments -/

/-- A blank within a line. -/
def isSpace (b : UInt8) : Bool := b == 0x20 || b == 0x09

/-- A byte of a line end. -/
def isLineEnd (b : UInt8) : Bool := b == 0x0A || b == 0x0D

/-- The text behind blanks. -/
def skipSpaces (t : Text) : Text := t.dropWhile isSpace

/-- The text behind blanks, line ends and comments. -/
def skipLines : (fuel : Nat) → Text → Text
  | 0, t => t
  | fuel + 1, t =>
    match t.dropWhile fun b => isSpace b || isLineEnd b with
    | 0x23 :: rest => skipLines fuel (rest.dropWhile (· != 0x0A))
    | t => t

/-! ## Strings -/

/-- The text of an escape, given its letter and what follows. -/
def escape? (letter : UInt8) (t : Text) : Option (Text × Text) :=
  let numbered (count : Nat) : Option (Text × Text) := do
    let (point, rest) ← hexDigits? count 0 t
    guard (isScalar point)
    return (ofPoint point, rest)
  if letter == byte 'b' then some ([0x08], t)
  else if letter == byte 't' then some ([0x09], t)
  else if letter == byte 'n' then some ([0x0A], t)
  else if letter == byte 'f' then some ([0x0C], t)
  else if letter == byte 'r' then some ([0x0D], t)
  else if letter == byte 'e' then some ([0x1B], t)
  else if letter == 0x22 then some ([0x22], t)
  else if letter == 0x5C then some ([0x5C], t)
  else if letter == byte 'x' then numbered 2
  else if letter == byte 'u' then numbered 4
  else if letter == byte 'U' then numbered 8
  else none

/-- A string behind its opening quote. -/
def basicString : (fuel : Nat) → Text → Option (Text × Text)
  | 0, _ => none
  | _, [] => none
  | fuel + 1, b :: t =>
    if b == 0x22 then some ([], t)
    else if isLineEnd b then none
    else if b == 0x5C then
      match t with
      | [] => none
      | letter :: t => do
        let (value, rest) ← escape? letter t
        let (more, rest) ← basicString fuel rest
        return (value ++ more, rest)
    else do
      let (more, rest) ← basicString fuel t
      return (b :: more, rest)

/-- A string without escapes behind its opening quote. -/
def literalString : Text → Option (Text × Text)
  | [] => none
  | b :: t =>
    if b == 0x27 then some ([], t)
    else if isLineEnd b then none
    else do
      let (more, rest) ← literalString t
      return (b :: more, rest)

/-- Where a string of several lines ends: at three quotes, before which a few more belong to it.
Answers those and the rest. The greatest number of quotes in a row is given. -/
def closing? (quote : UInt8) (most : Nat) (t : Text) : Option (Option (Text × Text)) :=
  let run := t.takeWhile (· == quote)
  if run.length < 3 then some none
  else if most < run.length then none
  else some (some (run.drop 3, t.drop run.length))

/-- The quotes that may stand in a row at the end of a string of several lines. -/
def mostQuotes : Nat := 5

/-- The text behind a line end and all blanks, if blanks and a line end come first. -/
def lineBreak? (t : Text) : Option Text :=
  let blanks := t.takeWhile fun b => isSpace b || isLineEnd b
  if blanks.contains 0x0A then some (t.drop blanks.length) else none

/-- The body of a string of several lines. A backslash at the end of a line takes all blanks behind
it along. Right behind an escaped backslash one quote more may stand at the end. -/
def multilineBasic : (fuel : Nat) → (afterBackslash : Bool) → Text → Option (Text × Text)
  | 0, _, _ => none
  | _, _, [] => none
  | fuel + 1, afterBackslash, b :: t =>
    if b == 0x22 then do
      match ← closing? 0x22 (if afterBackslash then mostQuotes + 1 else mostQuotes) (b :: t) with
      | some closed => return closed
      | none =>
        let (more, rest) ← multilineBasic fuel false t
        return (b :: more, rest)
    else if b == 0x5C then
      match lineBreak? t with
      | some rest => multilineBasic fuel false rest
      | none =>
        match t with
        | [] => none
        | letter :: t => do
          let (value, rest) ← escape? letter t
          let (more, rest) ← multilineBasic fuel (letter == 0x5C) rest
          return (value ++ more, rest)
    else do
      let (more, rest) ← multilineBasic fuel false t
      return (b :: more, rest)

/-- The body of a string of several lines without escapes. -/
def multilineLiteral : Text → Option (Text × Text)
  | [] => none
  | b :: t =>
    if b == 0x27 then do
      match ← closing? 0x27 mostQuotes (b :: t) with
      | some closed => return closed
      | none =>
        let (more, rest) ← multilineLiteral t
        return (b :: more, rest)
    else do
      let (more, rest) ← multilineLiteral t
      return (b :: more, rest)

/-- The text behind a line end. -/
def dropLineEnd : Text → Text
  | 0x0A :: t => t
  | 0x0D :: 0x0A :: t => t
  | t => t

/-! ## Keys -/

/-- A byte of a key without quotes. -/
def isKeyByte (b : UInt8) : Bool := isWord b || b == 0x2D

/-- One part of a key. -/
def keyPart : Text → Option (Text × Text)
  | [] => none
  | b :: t =>
    if b == 0x22 then basicString t.length t
    else if b == 0x27 then literalString t
    else
      let part := (b :: t).takeWhile isKeyByte
      if part.isEmpty then none else some (part, (b :: t).drop part.length)

/-- The parts of a dotted key, with blanks around the points. -/
def dottedKey : (fuel : Nat) → Text → Option (List Text × Text)
  | 0, _ => none
  | fuel + 1, t => do
    let (part, rest) ← keyPart (skipSpaces t)
    match skipSpaces rest with
    | 0x2E :: rest =>
      let (more, rest) ← dottedKey fuel rest
      return (part :: more, rest)
    | rest => return ([part], rest)

/-! ## Numbers -/

/-- A hexadecimal digit. -/
def isHexDigit (b : UInt8) : Bool := isDigit b || (0x61 ≤ lowerByte b && lowerByte b ≤ 0x66)

/-- Whether each underscore follows a digit and the last byte is one. -/
def underscoresFit : (afterDigit : Bool) → Text → Bool
  | afterDigit, [] => afterDigit
  | afterDigit, b :: t => (b != 0x5F || afterDigit) && underscoresFit (isHexDigit b) t

/-- Whether a number starts with a zero that says nothing. -/
def hasLeadingZero (t : Text) : Bool :=
  match t with
  | 0x30 :: b :: _ => !(b == byte 'b' || b == byte 'o' || b == byte 'x')
  | sign :: 0x30 :: _ :: _ => sign == 0x2B || sign == 0x2D
  | _ => false

/-- A whole number as written. -/
def integerOf? (t : Text) : Option Toml :=
  if !underscoresFit false t || hasLeadingZero t then none
  else match Number.signedMarked 64 t with
    | .ok n => some (.integer n)
    | .error _ => none

/-- The names of numbers without digits. -/
def namedReals : List Text := ["nan", "+nan", "-nan", "inf", "+inf", "-inf"]

/-- The parts of a number between points and exponent marks. -/
def realParts (t : Text) : List Text :=
  (Text.splitOn 0x65 (t.map fun b => if b == 0x2E || b == 0x45 then 0x65 else b)).filter
    (!·.isEmpty)

/-- Whether a digit follows every point. -/
def pointsFit : Text → Bool
  | [] => true
  | 0x2E :: t => (t.head?.map isDigit).getD false && pointsFit t
  | _ :: t => pointsFit t

/-- A number with a fraction or an exponent as written. -/
def realOf? (t : Text) : Option Toml :=
  let parts := realParts t
  if !parts.all (underscoresFit false) || hasLeadingZero (parts.headD []) || !pointsFit t then none
  else match Number.parse .double (t.filter (· != 0x5F)) with
    | .ok _ => some (.real t)
    | .error _ => none

/-- A byte that can go on a number with a fraction or an exponent. -/
def isRealByte (b : UInt8) : Bool :=
  isDigit b || [0x5F, 0x2E, 0x2D, 0x2B, 0x65, 0x45].contains b

/-- A byte that can go on a date. -/
def isMomentByte (b : UInt8) : Bool :=
  isDigit b || [0x2D, 0x3A, 0x54, 0x74, 0x20, 0x2E, 0x5A, 0x7A, 0x2B].contains b

/-- A number whose bytes up to the end of its integer part were taken: it goes on with a point or an
exponent, or ends here. -/
def realOrInteger (t whole : Text) : Option (Toml × Text) :=
  match t.drop whole.length with
  | b :: rest =>
    if b == 0x2E || b == 0x65 || b == 0x45 then
      let written := whole ++ b :: rest.takeWhile isRealByte
      (realOf? written).map fun v => (v, t.drop written.length)
    else (integerOf? whole).map fun v => (v, b :: rest)
  | [] => (integerOf? whole).map fun v => (v, [])

/-- A digit or an underscore. -/
def isDigitOrLine (b : UInt8) : Bool := isDigit b || b == 0x5F

/-- A number or a date that starts with a digit. -/
def numberOrMoment (t : Text) : Option (Toml × Text) :=
  let based (isBaseDigit : UInt8 → Bool) (rest : Text) : Option (Toml × Text) := do
    guard ((rest.head?.map isBaseDigit).getD false)
    let written := t.take 2 ++ rest.takeWhile fun b => isBaseDigit b || b == 0x5F
    let v ← integerOf? written
    return (v, t.drop written.length)
  match t with
  | 0x30 :: 0x62 :: rest => based (fun b => b == 0x30 || b == 0x31) rest
  | 0x30 :: 0x6F :: rest => based (fun b => 0x30 ≤ b && b ≤ 0x37) rest
  | 0x30 :: 0x78 :: rest => based isHexDigit rest
  | _ =>
    let leading := t.takeWhile isDigit
    match t.drop leading.length with
    | b :: _ =>
      if (b == 0x2D || b == 0x3A) && (1 < leading.length || leading != [0x30]) then
        let written := t.takeWhile isMomentByte
        let trimmed := (written.reverse.dropWhile (· == 0x20)).reverse
        if isMoment trimmed then some (.moment trimmed, t.drop written.length) else none
      else realOrInteger t (t.takeWhile isDigitOrLine)
    | [] => realOrInteger t leading

/-- A number behind its sign. -/
def signedNumber (sign : UInt8) (t : Text) : Option (Toml × Text) :=
  match namedReals.find? fun name => Text.startsWith (sign :: t) name with
  | some name => some (.real name, (sign :: t).drop name.length)
  | none =>
    match t with
    | b :: _ =>
      if isDigit b then realOrInteger (sign :: t) (sign :: t.takeWhile isDigitOrLine) else none
    | [] => none

/-! ## Values -/

/-- A value that is neither a list nor a table. -/
def scalar : Text → Option (Toml × Text)
  | [] => none
  | b :: t =>
    if isDigit b then numberOrMoment (b :: t)
    else if b == 0x22 then
      match t with
      | 0x22 :: 0x22 :: rest => do
        let body := dropLineEnd rest
        let (value, rest) ← multilineBasic body.length false body
        return (.text value, rest)
      | _ => do
        let (value, rest) ← basicString t.length t
        return (.text value, rest)
    else if b == 0x27 then
      match t with
      | 0x27 :: 0x27 :: rest => do
        let (value, rest) ← multilineLiteral (dropLineEnd rest)
        return (.text value, rest)
      | _ => do
        let (value, rest) ← literalString t
        return (.text value, rest)
    else if b == 0x2B || b == 0x2D then signedNumber b t
    else
      let word := (b :: t).takeWhile isLetter
      let rest := (b :: t).drop word.length
      if word == Text.ofString "true" then some (.boolean true, rest)
      else if word == Text.ofString "false" then some (.boolean false, rest)
      else match namedReals.find? fun name => Text.startsWith (b :: t) name with
        | some name => some (.real name, (b :: t).drop name.length)
        | none => none

mutual

/-- A value behind blanks, for a key of a table. A table in braces is also built in the draft, as an
element of an array of tables when it stands in a list. -/
def value : (fuel : Nat) → Draft → (context : List Text) → (key : Text) → (inList : Bool) → Text →
    Option (Draft × Toml × Text)
  | 0, _, _, _, _, _ => none
  | fuel + 1, d, context, key, inList, t =>
    match skipSpaces t with
    | 0x5B :: rest => do
      let (d, items, rest) ← listItems fuel (d.note context key true) context key rest
      return (d, .list items, rest)
    | 0x7B :: rest => do
      let path := context ++ [key]
      let d ← if inList then (d.imply path).openElement path else d.openImplied path
      let (d, entries, rest) ← tableEntries fuel d path [] rest
      return (d, .table entries, rest)
    | t => (scalar t).map fun (v, rest) => (d, v, rest)

/-- The items of a list up to its closing bracket. -/
def listItems : (fuel : Nat) → Draft → (context : List Text) → (key : Text) → Text →
    Option (Draft × List Toml × Text)
  | 0, _, _, _, _ => none
  | fuel + 1, d, context, key, t =>
    match skipLines t.length t with
    | 0x5D :: rest => some (d, [], rest)
    | t => do
      let (d, first, rest) ← value fuel d context key true t
      match skipLines rest.length rest with
      | 0x2C :: rest =>
        let (d, more, rest) ← listItems fuel d context key rest
        return (d, first :: more, rest)
      | 0x5D :: rest => return (d, [first], rest)
      | _ => none

/-- The entries of a table in braces, added to those before them. -/
def tableEntries : (fuel : Nat) → Draft → (context : List Text) → Entries → Text →
    Option (Draft × Entries × Text)
  | 0, _, _, _, _ => none
  | fuel + 1, d, context, entries, t =>
    match skipLines t.length t with
    | 0x7D :: rest => some (d, entries, rest)
    | t => do
      let (path, rest) ← dottedKey t.length t
      let rest ← dropHead? [0x3D] rest
      let key ← path.getLast?
      let (d, v, rest) ← assigned fuel d context path.dropLast key rest
      let entries ← insert key v path.dropLast entries
      match skipLines rest.length rest with
      | 0x2C :: rest => tableEntries fuel d context entries rest
      | 0x7D :: rest => return (d, entries, rest)
      | _ => none

/-- The value of a dotted key, given by the parts in front of the last and the last. -/
def assigned : (fuel : Nat) → Draft → (context steps : List Text) → (key : Text) → Text →
    Option (Draft × Toml × Text)
  | 0, _, _, _, _, _ => none
  | fuel + 1, d, context, steps, key, t => do
    let d ← Draft.openSteps context steps d
    let (d, v, rest) ← value fuel d (context ++ steps) key false t
    return (← d.finish (context ++ steps) key v, v, rest)

end

/-! ## Documents -/

/-- The rest behind a statement, which nothing but blanks and a comment may follow on its line. -/
def statementEnd (t : Text) : Option Text :=
  match skipSpaces t with
  | [] => some []
  | b :: t =>
    if b == 0x23 then some (t.dropWhile (· != 0x0A))
    else if isLineEnd b then some t
    else none

/-- The statements of a document, given the table that is open and what was built so far. -/
def statements : (fuel : Nat) → (context : List Text) → Draft → Text → Option Draft
  | 0, _, d, _ => some d
  | fuel + 1, context, d, t =>
    match skipLines t.length t with
    | [] => some d
    | 0x5B :: 0x5B :: rest => do
      let (path, rest) ← dottedKey rest.length rest
      let rest ← dropHead? [0x5D, 0x5D] rest
      let d ← d.openElement path
      statements fuel path (d.note path [] false) (← statementEnd rest)
    | 0x5B :: rest => do
      let (path, rest) ← dottedKey rest.length rest
      let rest ← dropHead? [0x5D] rest
      let d ← d.openTable path
      statements fuel path (d.note path [] false) (← statementEnd rest)
    | t => do
      let (path, rest) ← dottedKey t.length t
      let rest ← dropHead? [0x3D] rest
      let key ← path.getLast?
      let (d, _, rest) ← assigned (2 * rest.length + 2) d context path.dropLast key rest
      statements fuel context d (← statementEnd rest)

/-- The text behind a byte order mark. -/
def dropMark : Text → Text
  | 0xFF :: 0xFE :: t => t
  | 0xFE :: 0xFF :: t => t
  | 0xEF :: 0xBB :: 0xBF :: t => t
  | t => t

/-- Whether a text has no control characters but tabs and line ends; a carriage return stands only
in front of a line feed. -/
def isPrintable : Text → Bool
  | [] => true
  | b :: t =>
    (0x20 ≤ b && b != 0x7F || b == 0x09 || b == 0x0A || (b == 0x0D && t.head? == some 0x0A))
      && isPrintable t

/-- The entries of a document; none when it is malformed. -/
def parse (document : Text) : Option Entries :=
  let t := dropMark document
  if isUtf8 t && isPrintable t then (statements (t.length + 1) [] {} t).map (·.entries) else none

end TickScript.Toml
