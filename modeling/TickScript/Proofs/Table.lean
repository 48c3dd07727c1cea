import TickScript.Table

/-!
# What the operations of a table do to its look-up

A table is read through `get?`; `has` says whether there is something to read. Every operation is
described by what it does to these two, so that no later proof looks at the list behind a table; where
its order counts, a new key comes last.

A table is a list of pairs; the first entry of a key counts, and setting a key changes the entry in
its place. The laws hold of any list, whether a key occurs in it once or several times.
-/

namespace TickScript.Table

variable {κ ν : Type} [DecidableEq κ]

theorem has_eq_isSome (t : Table κ ν) (key : κ) : t.has key = (t.get? key).isSome := by
  induction t with
  | nil => rfl
  | cons entry t ih =>
      by_cases h : entry.1 = key
      · simp [has, get?, h]
      · simpa [has, get?, h] using ih

theorem has_iff (t : Table κ ν) (key : κ) : t.has key = true ↔ ∃ value, t.get? key = some value := by
  rw [has_eq_isSome, Option.isSome_iff_exists]

theorem has_eq_false_iff (t : Table κ ν) (key : κ) : t.has key = false ↔ t.get? key = none := by
  rw [has_eq_isSome, Option.isSome_eq_false_iff, Option.isNone_iff_eq_none]

@[simp] theorem get?_nil (key : κ) : get? ([] : Table κ ν) key = none := rfl

theorem get?_set (t : Table κ ν) (key other : κ) (value : ν) :
    (t.set key value).get? other = if other = key then some value else t.get? other := by
  split
  · next h => rw [h, get?_set_self]
  · next h => exact get?_set_of_ne t value h

theorem get?_erase (t : Table κ ν) (key other : κ) :
    (t.erase key).get? other = if other = key then none else t.get? other := by
  induction t with
  | nil => simp [erase, get?]
  | cons entry t ih =>
      by_cases hk : entry.1 = key
      · by_cases ho : other = key
        · simp [erase, get?, hk, ho]
        · have hne : ¬key = other := fun h => ho h.symm
          simpa [erase, get?, hk, ho, hne] using ih
      · by_cases ho : entry.1 = other
        · have hne : ¬other = key := fun h => hk (ho.trans h)
          simp [erase, get?, ho, hne]
        · simpa [erase, get?, hk, ho] using ih

theorem has_set (t : Table κ ν) (key other : κ) (value : ν) :
    (t.set key value).has other = true ↔ other = key ∨ t.has other = true := by
  simp only [has_iff, get?_set]
  by_cases h : other = key <;> simp [h]

theorem has_erase (t : Table κ ν) (key other : κ) :
    (t.erase key).has other = true ↔ other ≠ key ∧ t.has other = true := by
  simp only [has_iff, get?_erase]
  by_cases h : other = key <;> simp [h]

theorem get?_mem {t : Table κ ν} {key : κ} {value : ν} (h : t.get? key = some value) :
    (key, value) ∈ t := by
  obtain ⟨entry, hfind, rfl⟩ := Option.map_eq_some_iff.mp h
  have hkey : entry.1 = key := by simpa using List.find?_some hfind
  exact hkey ▸ List.mem_of_find?_eq_some hfind

theorem mem_keys_of_get? {t : Table κ ν} {key : κ} {value : ν} (h : t.get? key = some value) :
    key ∈ t.keys := List.mem_map.2 ⟨_, get?_mem h, rfl⟩

theorem not_mem_keys_of_get? {t : Table κ ν} {key : κ} (h : t.get? key = none) : key ∉ t.keys := by
  intro hmem
  obtain ⟨entry, hentry, rfl⟩ := List.mem_map.1 hmem
  have hnone := List.find?_eq_none.1 (Option.map_eq_none_iff.1 h) entry hentry
  exact hnone (by simp)

theorem any_set {t : Table κ ν} {p : κ → Bool} (h : t.any (fun entry => p entry.1) = true) (key : κ)
    (value : ν) : (t.set key value).any (fun entry => p entry.1) = true := by
  induction t with
  | nil => cases h
  | cons entry t ih =>
      by_cases hkey : entry.1 = key
      · simpa [set, hkey] using h
      · rw [List.any_cons, Bool.or_eq_true] at h
        rw [set, if_neg hkey, List.any_cons, Bool.or_eq_true]
        exact h.imp id ih

theorem set_of_get?_eq_none {t : Table κ ν} {key : κ} (h : t.get? key = none) (value : ν) :
    t.set key value = t ++ [(key, value)] := by
  induction t with
  | nil => rfl
  | cons entry t ih =>
      by_cases hkey : entry.1 = key
      · simp [get?, hkey] at h
      · have hrest : get? t key = none := by simpa [get?, hkey] using h
        rw [set, if_neg hkey, ih hrest]
        rfl

end TickScript.Table
