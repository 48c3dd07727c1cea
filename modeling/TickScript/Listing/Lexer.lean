import TickScript.Listing.Basic

/-!
# Lexemes of a listing

At every place the first class that matches wins, with the longest text that it allows: comment,
blanks, end of line, directive, label, float, integer, string, name, bracket.
-/

namespace TickScript.Listing

open TickScript.Text

/-- A byte that may start a name. -/
def startsName (b : UInt8) : Bool := isLetter b || b == 0x5F || b == 0x24

/-- A byte that may continue a name. -/
def inName (b : UInt8) : Bool := isWord b || b == 0x2E || b == 0x24

/-- A name at the front of a text. -/
def nameAt (t : Text) : Option Text :=
  match t with
  | [] => none
  | b :: rest => if startsName b then some (b :: rest.takeWhile inName) else none

/-- A nonempty run of digits. -/
def digitsAt (t : Text) : Option Text :=
  let run := t.takeWhile isDigit
  if run.isEmpty then none else some run

/-- An optional sign. -/
def signAt : Text → Text
  | 0x2D :: _ => [0x2D]
  | 0x2B :: _ => [0x2B]
  | _ => []

/-- An exponent: its mark, an optional sign and digits. -/
def exponentAt (t : Text) : Option Text :=
  match t with
  | [] => none
  | b :: rest =>
    if b == byte 'e' || b == byte 'E' then
      let sign := signAt rest
      (digitsAt (rest.drop sign.length)).map fun digits => b :: sign ++ digits
    else none

/-- A float: digits with a point or with an exponent. -/
def floatAt (t : Text) : Option Text := do
  let sign := signAt t
  let body := t.drop sign.length
  let whole ← digitsAt body
  let rest := body.drop whole.length
  match rest with
  | 0x2E :: rest =>
    let fraction := rest.takeWhile isDigit
    let exponent := (exponentAt (rest.drop fraction.length)).getD []
    some (sign ++ whole ++ 0x2E :: fraction ++ exponent)
  | _ => do
    let exponent ← exponentAt rest
    some (sign ++ whole ++ exponent)

/-- A hexadecimal digit. -/
def isHexDigit (b : UInt8) : Bool := isDigit b || (0x61 ≤ lowerByte b && lowerByte b ≤ 0x66)

/-- An integer, decimal or hexadecimal. -/
def intAt (t : Text) : Option Text :=
  let sign := signAt t
  let body := t.drop sign.length
  let decimal := (digitsAt body).map (sign ++ ·)
  match body with
  | 0x30 :: b :: rest =>
    let digits := rest.takeWhile isHexDigit
    if lowerByte b == byte 'x' && !digits.isEmpty then some (sign ++ 0x30 :: b :: digits)
    else decimal
  | _ => decimal

/-- The rest of a string behind its opening quote, with the closing one. A line may end inside a
string but not behind a backslash. -/
def stringRest : Text → Option Text
  | [] => none
  | 0x5C :: 0x0A :: _ => none
  | 0x5C :: c :: t => (stringRest t).map fun rest => 0x5C :: c :: rest
  | 0x22 :: _ => some [0x22]
  | 0x5C :: [] => none
  | b :: t => (stringRest t).map (b :: ·)

/-- The lexeme at the front of a text; its kind is missing for comments and blanks. -/
def lexemeAt (t : Text) : Option (Option LexemeKind × Text) :=
  match t with
  | [] => none
  | b :: rest =>
    if b == 0x3B then some (none, b :: rest.takeWhile (· != 0x0A))
    else if b == 0x20 || b == 0x09 || b == 0x0D then
      some (none, b :: rest.takeWhile fun c => c == 0x20 || c == 0x09 || c == 0x0D)
    else if b == 0x0A then some (some .endOfLine, [b])
    else if b == 0x2E && (rest.headD 0 |> isLower) then
      some (some .directive, b :: rest.takeWhile isLower)
    else match nameAt t with
      | some name =>
        if t[name.length]? == some 0x3A then some (some .label, name ++ [0x3A])
        else some (some .ident, name)
      | none =>
        match floatAt t with
        | some text => some (some .float, text)
        | none =>
          match intAt t with
          | some text => some (some .int, text)
          | none =>
            if b == 0x22 then (stringRest rest).map fun text => (some .string, b :: text)
            else if b == 0x5B || b == 0x5D then some (some .bracket, [b])
            else none

/-- The place behind a text that starts at a place. -/
def Place.after (p : Place) (t : Text) : Place :=
  let lines := splitOn 0x0A t
  match lines.getLast? with
  | some last =>
    if lines.length ≤ 1 then ⟨p.line, p.column + (runes t).length⟩
    else ⟨p.line + (lines.length - 1), 1 + (runes last).length⟩
  | none => p

/-- The lexemes of a text that starts at a place, without comments and blanks. -/
def lexemesFrom : (fuel : Nat) → Place → Text → Except GrammarError (List Lexeme)
  | 0, _, _ => .ok []
  | _, _, [] => .ok []
  | fuel + 1, place, t =>
    match lexemeAt t with
    | none => .error (.badCharacter place)
    | some (kind?, text) => do
      let rest ← lexemesFrom fuel (place.after text) (t.drop text.length)
      match kind? with
      | some kind => return ⟨kind, text, place⟩ :: rest
      | none => return rest

/-- The lexemes of a listing, which is taken to end with its last line. -/
def lexemes (source : Text) : Except GrammarError (List Lexeme) :=
  let source := if source.getLast? == some 0x0A then source else source ++ [0x0A]
  lexemesFrom source.length ⟨1, 1⟩ source

end TickScript.Listing
