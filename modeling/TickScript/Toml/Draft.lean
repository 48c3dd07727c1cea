import TickScript.Toml.Basic

/-!
# Documents under construction

A document is built statement by statement: a header opens a table or adds one to an array of
tables, and a key with a value adds to the table that is open. A key stands only once, except that a
table which was only implied, by standing in front of a point, may still be given by its own name.

Two marks are kept by path, so that a mark made for one element of an array of tables also speaks
for the next element: which tables were implied, and which paths last had a list. An implied path is
given once: a table there stays as it is, and a list there gives way to the new value.
-/

namespace TickScript.Toml

/-- A document that is being read. -/
structure Draft where
  entries : Entries := []
  /-- The paths of tables that were implied and not given since. -/
  implied : List (List Text) := []
  /-- The paths whose last value was a list. -/
  listed : List (List Text) := []

namespace Draft

/-- The value of a key in the table that a path leads to. -/
def get? (d : Draft) (context : List Text) (key : Text) : Option Toml :=
  (entriesAt? d.entries context).bind fun entries => Table.get? entries key

/-- The draft with a value for a key in the table that a path leads to. -/
def set (d : Draft) (context : List Text) (key : Text) (value : Toml) : Draft :=
  { d with entries := setAt key value context d.entries }

/-- Marks a path as implied. -/
def imply (d : Draft) (path : List Text) : Draft :=
  { d with implied := d.implied.insert path }

/-- Marks whether the value of a key is a list. The empty key speaks for the table that it stands
in, unless that is the whole document. -/
def note (d : Draft) (context : List Text) (key : Text) (isList : Bool) : Draft :=
  let path := if key.isEmpty && !context.isEmpty then context else context ++ [key]
  { d with listed := if isList then d.listed.insert path else d.listed.filter (· != path) }

/-- Gives a key of a table its value. A key that is there must have been implied; then it stays,
unless it was a list. -/
def give (d : Draft) (context : List Text) (key : Text) (value : Toml) : Option Draft := do
  let entries ← entriesAt? d.entries context
  let path := context ++ [key]
  if Table.has entries key then
    guard (d.implied.contains path)
    let d := { d with implied := d.implied.filter (· != path) }
    return if d.listed.contains path then d.set context key value else d
  else return d.set context key value

/-- Creates the tables that are missing on the way along a path; they are implied. -/
def establish (context : List Text) : List Text → Draft → Option Draft
  | [], d => some d
  | key :: rest, d =>
    let path := context ++ [key]
    match d.get? context key with
    | none => establish path rest ((d.imply path).set context key (.table []))
    | some node => if node.inner?.isSome then establish path rest d else none

/-- Opens the table at a path. -/
def openTable (d : Draft) (path : List Text) : Option Draft := do
  let key ← path.getLast?
  (← establish [] path.dropLast d).give path.dropLast key (.table [])

/-- Adds a table to the array of tables at a path. -/
def openElement (d : Draft) (path : List Text) : Option Draft := do
  let key ← path.getLast?
  let d ← establish [] path.dropLast d
  match d.get? path.dropLast key with
  | none => return d.set path.dropLast key (.tables [[]])
  | some (.tables elements) => return d.set path.dropLast key (.tables (elements ++ [[]]))
  | some _ => none

/-- Opens a table that stands in front of a point or has its value in braces. -/
def openImplied (d : Draft) (path : List Text) : Option Draft := (d.imply path).openTable path

/-- Opens the tables in front of the last part of a dotted key, one after the other. -/
def openSteps (context : List Text) : List Text → Draft → Option Draft
  | [], d => some d
  | key :: rest, d => do
    let path := context ++ [key]
    openSteps path rest (← d.openImplied path)

/-- Gives a key the value that was read for it. -/
def finish (d : Draft) (context : List Text) (key : Text) (value : Toml) : Option Draft :=
  (d.give context key value).map (·.note context key value.isList)

end Draft

end TickScript.Toml
