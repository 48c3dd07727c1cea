/-!
# Tables

A `Table` maps keys to values. It is a list of pairs in which a key that is set again keeps its
place, so a table can be read in the order in which its keys first came in.
-/

namespace TickScript

/-- A finite map in order of first insertion. -/
abbrev Table (κ ν : Type) := List (κ × ν)

namespace Table

variable {κ ν : Type} [DecidableEq κ]

/-- The value of a key. -/
def get? (t : Table κ ν) (key : κ) : Option ν :=
  (t.find? fun entry => entry.1 = key).map (·.2)

/-- Whether a key has a value. -/
def has (t : Table κ ν) (key : κ) : Bool := t.any fun entry => entry.1 = key

/-- The table with a value for a key. -/
def set : Table κ ν → κ → ν → Table κ ν
  | [], key, value => [(key, value)]
  | entry :: t, key, value =>
    if entry.1 = key then (key, value) :: t else entry :: set t key value

/-- The table without a key. -/
def erase (t : Table κ ν) (key : κ) : Table κ ν := t.filter fun entry => !(entry.1 = key)

/-- The keys in order. -/
def keys (t : Table κ ν) : List κ := t.map (·.1)

/-- A table from pairs, a later pair of one key winning. -/
def ofList (pairs : List (κ × ν)) : Table κ ν :=
  pairs.foldl (fun t entry => t.set entry.1 entry.2) []

theorem get?_set_self (t : Table κ ν) (key : κ) (value : ν) :
    (t.set key value).get? key = some value := by
  induction t with
  | nil => simp [set, get?]
  | cons entry t ih =>
    by_cases h : entry.1 = key
    · simp [set, get?, h]
    · simpa [set, get?, h] using ih

theorem get?_set_of_ne (t : Table κ ν) {key other : κ} (value : ν) (h : other ≠ key) :
    (t.set key value).get? other = t.get? other := by
  induction t with
  | nil => simp [set, get?, Ne.symm h]
  | cons entry t ih =>
    by_cases hk : entry.1 = key
    · simp [set, get?, hk, Ne.symm h]
    · by_cases ho : entry.1 = other
      · simp [set, get?, ho, h]
      · simpa [set, get?, hk, ho] using ih

end Table

end TickScript
