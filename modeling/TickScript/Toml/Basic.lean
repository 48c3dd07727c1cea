import TickScript.Table
import TickScript.Text.Basic

/-!
# Documents of keys and values

A TOML document is a tree of tables. A value is plain, a list, a table, or an array of tables that
was added to one by one.
-/

namespace TickScript

/-- A value of a document. -/
inductive Toml where
  | text (value : Text)
  | integer (value : Int)
  /-- A number with a fraction or an exponent, as written. -/
  | real (written : Text)
  | boolean (value : Bool)
  /-- A date, a time of day or both, as written. -/
  | moment (written : Text)
  | list (items : List Toml)
  | table (entries : List (Text × Toml))
  /-- Tables that were added one by one by headers. -/
  | tables (elements : List (List (Text × Toml)))

namespace Toml

/-- The entries of a table in order. -/
abbrev Entries := Table Text Toml

/-- A reader of documents; it has no answer for a text that is malformed. -/
abbrev Reader := Text → Option Entries

/-- Whether a value is a list. -/
def isList : Toml → Bool
  | list _ => true
  | _ => false

/-- The entries that keys are added to and looked up in: those of a table, or of the last element of
an array of tables. -/
def inner? : Toml → Option Entries
  | table entries => some entries
  | tables elements => elements.getLast?
  | _ => none

/-- The value with other entries in place of `inner?`. -/
def withInner (entries : Entries) : Toml → Toml
  | tables elements => tables (elements.dropLast ++ [entries])
  | _ => table entries

/-- The entries that a path leads to. -/
def entriesAt? (entries : Entries) : List Text → Option Entries
  | [] => some entries
  | key :: rest =>
    match (entries.get? key).bind inner? with
    | some inner => entriesAt? inner rest
    | none => none

/-- The entries with a value for a key in the table that a path leads to. -/
def setAt (key : Text) (value : Toml) : List Text → Entries → Entries
  | [], entries => entries.set key value
  | step :: rest, entries =>
    match entries.get? step with
    | some node => entries.set step (node.withInner (setAt key value rest (node.inner?.getD [])))
    | none => entries

/-- Adds a dotted key with a value to the entries of one table; a later value takes the place of an
earlier one. Answers nothing when the key leads through a value that is no table. -/
def insert (key : Text) (value : Toml) : List Text → Entries → Option Entries
  | [], entries => some (entries.set key value)
  | step :: rest, entries =>
    match entries.get? step with
    | none => (insert key value rest []).map fun inner => entries.set step (.table inner)
    | some (.table inner) =>
      (insert key value rest inner).map fun inner => entries.set step (.table inner)
    | some _ => none

end Toml

end TickScript
