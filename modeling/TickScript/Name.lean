import TickScript.Table
import TickScript.Text.Basic

/-!
# Names and ids

Code refers to a declaration by a 64-bit id that is derived from its name alone, so a reference can
be encoded before its target is known. Ids of names are not negative; the negative ids are reserved
for objects that the machine resolves itself.
-/

namespace TickScript

/-- The id of a declaration. -/
abbrev Id := Int64

/-- Which id stands for which name. -/
abbrev Names := Table Id Text

namespace Name

/-- The id of the null object. -/
def nullObject : Id := -1

/-- The id of the object that the machine is attached to. -/
def attachedObject : Id := -2

/-- The 64-bit FNV-1a hash. -/
def hash (t : Text) : UInt64 :=
  t.foldl (fun h b => (h ^^^ b.toUInt64) * 1099511628211) 14695981039346656037

/-- The id of a name: its hash without the top bit. -/
def id (name : Text) : Id := (hash name &&& 0x7FFFFFFFFFFFFFFF).toInt64

/-- The name of a local variable, qualified by its function. -/
def qualified (function localName : Text) : Text := function ++ 0x2E :: localName

end Name

end TickScript
