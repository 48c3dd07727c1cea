import TickScript.Text.Utf8

/-!
# Listings

The textual form of a script. A listing is a sequence of declarations, one per line, and under a
function its labels and instructions:

    ; comment
    .field speed int 4
    .func add 2 int
        MEM 4 int add.b
    top:
        JMPCOFF top
        SET add.a 4 [1 0 0 0]
        RET
-/

namespace TickScript.Listing

/-- A place in a listing. Lines and columns count from one, columns in code points. -/
structure Place where
  line : Nat
  column : Nat
deriving DecidableEq, Repr, Inhabited

/-- The classes of lexemes that matter to the grammar. -/
inductive LexemeKind where
  | endOfLine
  | directive
  | label
  | float
  | int
  | string
  | ident
  | bracket
deriving DecidableEq, Repr

/-- A piece of a listing. -/
structure Lexeme where
  kind : LexemeKind
  text : Text
  place : Place
deriving DecidableEq, Repr

/-- The operand of an instruction, as written. -/
inductive Argument where
  | bytes (items : List Text)
  | int (text : Text)
  | float (text : Text)
  | string (text : Text)
  | ident (name : Text)
deriving DecidableEq, Repr

/-- An operand with its place. -/
structure PlacedArgument where
  place : Place
  argument : Argument
deriving DecidableEq, Repr

/-- An instruction as written. -/
structure WrittenInstr where
  place : Place
  mnemonic : Text
  arguments : List PlacedArgument
deriving DecidableEq, Repr

/-- A line of a function. -/
inductive Line where
  | label (place : Place) (name : Text)
  | instr (written : WrittenInstr)
deriving DecidableEq, Repr

/-- A declaration. -/
inductive Item where
  | global (place : Place) (isField : Bool) (name type : Text) (value? : Option Argument)
  | function (place : Place) (name params returns : Text) (lines : List Line)
deriving Repr

/-- Why a text is no listing. -/
inductive GrammarError where
  /-- A character that starts no lexeme. -/
  | badCharacter (place : Place)
  /-- A lexeme that cannot stand where it does. -/
  | badLexeme (place : Place)
deriving DecidableEq, Repr

end TickScript.Listing
