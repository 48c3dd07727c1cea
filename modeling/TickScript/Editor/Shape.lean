import TickScript.Editor.Json

/-!
# Shapes of messages

A shape says what a value must look like to be understood. Null fits every shape. An object may lack
members and have unknown ones, but each member under a known name, in whatever case, must fit the
shape of that name.
-/

namespace TickScript.Editor

/-- What a value must look like. -/
inductive Shape where
  | any
  | bool
  | text
  /-- A number without decimal places from `low` to `high`. -/
  | whole (low high : Int)
  | list (item : Shape)
  | object (fields : List (Text × Shape))
  | either (first second : Shape)

namespace Shape

mutual

/-- Whether a value has a shape. -/
def fits : Shape → Json → Bool
  | any, _ => true
  | either first second, j => first.fits j || second.fits j
  | _, .null => true
  | bool, .bool _ => true
  | text, .text _ => true
  | whole low high, .number n 0 => low ≤ n && n ≤ high
  | list item, .list items => items.all fun j => item.fits j
  | object fields, .object members => fieldsFit fields members
  | _, _ => false

/-- Whether all members under the names of some fields have the shapes of those fields. -/
def fieldsFit : List (Text × Shape) → List (Text × Json) → Bool
  | [], _ => true
  | (name, shape) :: fields, members =>
    (members.all fun m => !Text.equalFold name m.1 || shape.fits m.2) && fieldsFit fields members

end

/-- A whole number of 32 bits with sign. -/
def int : Shape := whole (-0x80000000) 0x7FFFFFFF

/-- A whole number of 32 bits without sign. -/
def word : Shape := whole 0 0xFFFFFFFF

/-- What a client calls a piece of work in progress: a number or a text. -/
def token : Shape := either int text

/-- Fields that are truth values, in front of others. -/
def flags (names : List Text) (others : List (Text × Shape)) : List (Text × Shape) :=
  names.map (fun name => (name, bool)) ++ others

/-- The field that holds the allowed values of something. -/
def valueSet (item : Shape) : Shape := object [("valueSet", list item)]

end Shape

end TickScript.Editor
