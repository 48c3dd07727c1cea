import TickScript.Text.Utf8

/-!
# Structured messages

Editors and the server exchange structured values: null, truth values, decimal numbers, texts, lists
and objects with named members. A member may be given several times, under names that differ in
case: then objects are taken together member by member, and of other values the last one counts. The
readers below give the zero value for what is missing or null, and expect values of the right shape.
-/

namespace TickScript.Editor

/-- A structured value. -/
inductive Json where
  | null
  | bool (value : Bool)
  /-- The number `mantissa · 10 ^ (-exponent)`. -/
  | number (mantissa : Int) (exponent : Nat)
  | text (value : Text)
  | list (items : List Json)
  | object (members : List (Text × Json))
deriving Inhabited, Repr

namespace Json

/-- A number without decimal places. -/
def nat (n : Nat) : Json := .number n 0

/-- A text as it is sent: stray bytes are replaced. -/
def sent (t : Text) : Json := .text (Text.repaired t)

/-! ## Reading -/

/-- The values of the members of a name, in order, of several objects taken together. Case is
ignored in names. -/
def values (name : Text) (js : List Json) : List Json :=
  js.flatMap fun
    | .object members => (members.filter fun m => Text.equalFold name m.1).map (·.2)
    | _ => []

/-- The last text of some values; empty when there is none. -/
def lastText (js : List Json) : Text :=
  (js.filterMap fun | .text t => some t | _ => none).getLast?.getD []

/-- The last number of some values; zero when there is none. -/
def lastNat (js : List Json) : Nat :=
  (js.filterMap fun | .number n 0 => some n.toNat | _ => none).getLast?.getD 0

/-- The items of the last of some values; empty when it is no list. -/
def lastItems (js : List Json) : List Json :=
  match js.getLast? with
  | some (.list items) => items
  | _ => []

/-- Whether the last of some values is there and is not null. -/
def lastGiven (js : List Json) : Bool :=
  match js.getLast? with
  | none | some .null => false
  | some _ => true

end Json

end TickScript.Editor
