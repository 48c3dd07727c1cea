import TickScript.Text.Utf8
import TickScript.Toml.Basic

/-!
# Typed fields of a document

A field is looked up by its name, ignoring case. A field that is not there has its default; one of
the wrong type makes the whole document unfit, and so does any further one that differs from it only
in case. Of several values the one under the exact name counts; several tables are taken together.
Unknown fields are ignored.
-/

namespace TickScript.Toml

/-- The values of a field, the one under the exact name first. -/
def fieldValues (entries : Entries) (name : Text) : List Toml :=
  let named := entries.filter fun entry => Text.equalFold name entry.1
  (named.filter (·.1 == name) ++ named.filter (·.1 != name)).map (·.2)

/-- A field of a type, with its default. -/
def typedField {α : Type} (read : Toml → Option α) (default : α) (entries : Entries) (name : Text) :
    Option α :=
  ((fieldValues entries name).mapM read).map (·.headD default)

/-- The text of a value. -/
def asText : Toml → Option Text
  | .text value => some value
  | _ => none

/-- The truth value of a value. -/
def asBool : Toml → Option Bool
  | .boolean value => some value
  | _ => none

/-- The whole number of a value. -/
def asInt : Toml → Option Int
  | .integer value => some value
  | _ => none

/-- The entries of a value. -/
def asEntries : Toml → Option Entries
  | .table entries => some entries
  | _ => none

/-- The texts of a list. -/
def asTexts : Toml → Option (List Text)
  | .list items => items.mapM asText
  | _ => none

/-- The tables of a value, listed or added one by one. -/
def asTables : Toml → Option (List Entries)
  | .tables elements => some elements
  | .list items => items.mapM asEntries
  | _ => none

/-- A text field; empty by default. -/
def textField : Entries → Text → Option Text := typedField asText []

/-- A truth field; false by default. -/
def boolField : Entries → Text → Option Bool := typedField asBool false

/-- A whole-number field; zero by default. -/
def intField : Entries → Text → Option Int := typedField asInt 0

/-- A field with a list of texts; empty by default. -/
def textsField : Entries → Text → Option (List Text) := typedField asTexts []

/-- A field with a table; empty by default. -/
def tableField (entries : Entries) (name : Text) : Option Entries :=
  ((fieldValues entries name).mapM asEntries).map (·.flatten)

/-- A field with tables, listed or added one by one, each read in its turn; empty by default. -/
def tablesField {α : Type} (read : Entries → Option α) (entries : Entries) (name : Text) :
    Option (List α) :=
  typedField (fun value => (asTables value).bind (·.mapM read)) [] entries name

/-- A field with a table of any keys; empty by default and when it is anything else. -/
def openField (entries : Entries) (name : Text) : Entries :=
  (fieldValues entries name).flatMap fun value => (asEntries value).getD []

end TickScript.Toml
