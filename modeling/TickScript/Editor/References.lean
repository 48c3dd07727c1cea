import TickScript.Token.Scanner

/-!
# Uses of a word

A word is used wherever it stands as a token outside of string literals. Tokens have lines but no
columns, so the columns are those at which the word stands on its own in such a line.
-/

namespace TickScript.Editor

/-- The columns from `column` on at which a word stands on its own in a line. `before` is the byte
in front. The search goes on behind each occurrence, also behind one within a longer word. -/
def wordColumns (word : Text) :
    (fuel : Nat) → (before : Option UInt8) → (column : Nat) → Text → List Nat
  | 0, _, _, _ => []
  | _, _, _, [] => []
  | fuel + 1, before, column, b :: line =>
    match Text.dropHead? word (b :: line) with
    | some rest =>
      let alone :=
        !((before.map Text.isWord).getD false) && !((rest.head?.map Text.isWord).getD false)
      let more := wordColumns word fuel word.getLast? (column + word.length) rest
      if alone then column :: more else more
    | none => wordColumns word fuel (some b) (column + 1) line

/-- The lines on which a word is a token outside of strings, each once. -/
def referenceLines (word : Text) : (inString : Bool) → (seen : List Int) → List Token → List Int
  | _, _, [] => []
  | inString, seen, t :: rest =>
    if t.kind = .quote then referenceLines word (!inString) seen rest
    else if inString || t.kind ≠ .text || t.text ≠ word || seen.contains t.line then
      referenceLines word inString seen rest
    else t.line :: referenceLines word inString (t.line :: seen) rest

/-- Where a word is used: lines from one on, columns from zero on. -/
def references (text word : Text) : List (Int × Nat) :=
  let lines := Text.splitOn 0x0A text
  (referenceLines word false [] (tokenize text)).flatMap fun number =>
    match if number < 1 then none else lines[(number - 1).toNat]? with
    | some line => (wordColumns word line.length none 0 line).map fun column => (number, column)
    | none => []

end TickScript.Editor
