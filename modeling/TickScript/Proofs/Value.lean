import TickScript.Expr.Literal
import TickScript.Proofs.Table
import TickScript.Proofs.Word

/-!
# The types of values

A value is well formed when its tag is that of a type and its data has the size of the type. The
values that are made here all are: zeros, conversions to a type of variables, and literals that the
type of a variable accepts. A table of variables has the types of its values; writing a variable as
its own type keeps them all.

Two notions are kept apart. `WellFormed` is about any value that the machine may hold; `Fills` is
about the values of a variable, whose type is given, and says that the value has this type.
Assigning to a variable, giving it an initial value and passing an argument all end in a conversion,
so each of them gives a value that fills its type.
-/

namespace TickScript

/-- A type that a variable can have. -/
structure VarType.Storable (t : VarType) : Prop where
  known : t.isKnown = true
  nonvoid : t ≠ .void

namespace VarType

theorem Storable.cases {t : VarType} (h : t.Storable) :
    t = object ∨ t = string ∨ t = float ∨ t = bool ∨ t = int ∨ t = uint := by
  obtain ⟨hknown, hnonvoid⟩ := h
  obtain ⟨tag⟩ := t
  have hle : tag.toNat ≤ 6 := by simpa [isKnown, UInt8.le_iff_toNat_le] using hknown
  have hpos : tag.toNat ≠ 0 := by
    intro hzero
    exact hnonvoid (congrArg VarType.mk (UInt8.toNat_inj.mp hzero))
  have htag : tag.toNat = 1 ∨ tag.toNat = 2 ∨ tag.toNat = 3 ∨ tag.toNat = 4 ∨ tag.toNat = 5
      ∨ tag.toNat = 6 := by omega
  rcases htag with h | h | h | h | h | h
  · exact .inl (congrArg VarType.mk (UInt8.toNat_inj.mp h))
  · exact .inr (.inl (congrArg VarType.mk (UInt8.toNat_inj.mp h)))
  · exact .inr (.inr (.inl (congrArg VarType.mk (UInt8.toNat_inj.mp h))))
  · exact .inr (.inr (.inr (.inl (congrArg VarType.mk (UInt8.toNat_inj.mp h)))))
  · exact .inr (.inr (.inr (.inr (.inl (congrArg VarType.mk (UInt8.toNat_inj.mp h))))))
  · exact .inr (.inr (.inr (.inr (.inr (congrArg VarType.mk (UInt8.toNat_inj.mp h))))))

end VarType

namespace Value

/-- A value of a known type with data of its size. -/
structure WellFormed (v : Value) : Prop where
  known : v.type.isKnown = true
  size : ∀ n, v.type.size? = some n → v.data.length = n

theorem WellFormed.of_size {v : Value} {n : Nat} (hknown : v.type.isKnown = true)
    (hsize : v.type.size? = some n) (hlength : v.data.length = n) : v.WellFormed :=
  ⟨hknown, fun _ h => hlength.trans (Option.some.inj (hsize.symm.trans h))⟩

theorem wellFormed_ofInt (n : Int) : (ofInt n).WellFormed :=
  .of_size rfl rfl (Text.length_littleEndian 4 _)

theorem wellFormed_ofUint (n : Int) : (ofUint n).WellFormed :=
  .of_size rfl rfl (Text.length_littleEndian 4 _)

theorem wellFormed_ofReal (x : Number.Real) : (ofReal x).WellFormed :=
  .of_size rfl rfl (Text.length_littleEndian 4 _)

theorem wellFormed_ofBool (b : Bool) : (ofBool b).WellFormed := .of_size rfl rfl rfl

theorem wellFormed_ofHandle (n : Int) : (ofHandle n).WellFormed :=
  .of_size rfl rfl (Text.length_littleEndian 8 _)

theorem wellFormed_ofText (t : Text) : (ofText t).WellFormed := ⟨rfl, fun _ h => by cases h⟩

/-- A value of a type that a variable can have. -/
structure Fills (v : Value) (t : VarType) : Prop extends WellFormed v where
  type : v.type = t

theorem fills_zero {t : VarType} (h : t.Storable) : (zero t).Fills t := by
  rcases h.cases with rfl | rfl | rfl | rfl | rfl | rfl
  · exact ⟨wellFormed_ofHandle _, rfl⟩
  · exact ⟨wellFormed_ofText _, rfl⟩
  · exact ⟨wellFormed_ofReal _, rfl⟩
  · exact ⟨wellFormed_ofBool _, rfl⟩
  · exact ⟨wellFormed_ofInt _, rfl⟩
  · exact ⟨wellFormed_ofUint _, rfl⟩

theorem convert_of_type {v : Value} {t : VarType} (h : v.type = t) : v.convert t = v := by
  unfold convert
  exact if_pos h

theorem known_convert {v : Value} (h : v.type.isKnown = true) (t : VarType) :
    (v.convert t).type.isKnown = true := by
  unfold convert
  split
  · exact h
  · split <;> rfl

theorem type_convert {t : VarType} (h : t.isKnown = true) (v : Value) : (v.convert t).type = t := by
  by_cases hvoid : t = .void
  · subst hvoid
    simp only [convert]
    split
    · assumption
    · rfl
  · unfold convert
    split
    · assumption
    · rcases (VarType.Storable.mk h hvoid).cases with rfl | rfl | rfl | rfl | rfl | rfl <;> rfl

end Value

namespace Expr

theorem fills_realLiteral {x : Number.Real} {t : VarType} {v : Value}
    (h : realLiteral x t = .ok v) : v.Fills t := by
  unfold realLiteral at h
  split at h
  · split at h
    · cases h
    · obtain rfl := Except.ok.inj h
      exact ⟨Value.wellFormed_ofReal _, rfl⟩
  · obtain rfl := Except.ok.inj h
    exact ⟨Value.wellFormed_ofBool _, rfl⟩
  · cases h

theorem fills_integerLiteral {n : Int} {t : VarType} {v : Value}
    (h : integerLiteral n t = .ok v) : v.Fills t := by
  unfold integerLiteral at h
  split at h
  · split at h
    · cases h
    · obtain rfl := Except.ok.inj h
      exact ⟨Value.wellFormed_ofInt _, rfl⟩
  · split at h
    · cases h
    · split at h
      · cases h
      · obtain rfl := Except.ok.inj h
        exact ⟨Value.wellFormed_ofUint _, rfl⟩
  · obtain rfl := Except.ok.inj h
    exact ⟨Value.wellFormed_ofReal _, rfl⟩
  · obtain rfl := Except.ok.inj h
    exact ⟨Value.wellFormed_ofBool _, rfl⟩
  · obtain rfl := Except.ok.inj h
    exact ⟨Value.wellFormed_ofHandle _, rfl⟩
  · cases h

/-- A literal that a type accepts is a value of that type. -/
theorem fills_literal {e : Expr} {t : VarType} {v : Value} (ht : t.Storable)
    (h : e.literal t = .ok v) : v.Fills t := by
  unfold literal at h
  split at h
  · cases h
  · split at h
    · obtain rfl := Except.ok.inj h
      exact ⟨Value.wellFormed_ofText _, rfl⟩
    · cases h
  · split at h
    · cases h
    · cases h
    · next hstring hobject =>
        obtain rfl := Except.ok.inj h
        rcases ht.cases with rfl | rfl | rfl | rfl | rfl | rfl
        · exact absurd rfl hobject
        · exact absurd rfl hstring
        · exact ⟨Value.wellFormed_ofReal _, rfl⟩
        · exact ⟨Value.wellFormed_ofBool _, rfl⟩
        · exact ⟨Value.wellFormed_ofInt _, rfl⟩
        · exact ⟨Value.wellFormed_ofUint _, rfl⟩
    · cases h
  · cases hreal : e.realValue with
    | error error => simp [hreal, bind, Except.bind] at h
    | ok x => exact fills_realLiteral (by simpa [hreal, bind, Except.bind] using h)
  · cases hinteger : e.integerValue with
    | error error => simp [hinteger, bind, Except.bind] at h
    | ok n => exact fills_integerLiteral (by simpa [hinteger, bind, Except.bind] using h)
  · cases h

theorem known_literal {e : Expr} {t : VarType} {v : Value} (h : e.literal t = .ok v) :
    v.type.isKnown = true := by
  unfold literal at h
  split at h
  · cases h
  · split at h
    · exact Except.ok.inj h ▸ rfl
    · cases h
  · split at h
    · cases h
    · cases h
    · exact Except.ok.inj h ▸ Value.known_convert rfl t
    · cases h
  · cases hreal : e.realValue with
    | error error => simp [hreal, bind, Except.bind] at h
    | ok x => exact (fills_realLiteral (by simpa [hreal, bind, Except.bind] using h)).known
  · cases hinteger : e.integerValue with
    | error error => simp [hinteger, bind, Except.bind] at h
    | ok n => exact (fills_integerLiteral (by simpa [hinteger, bind, Except.bind] using h)).known
  · cases h

end Expr

/-! ## Integers -/

theorem Value.toInt_of_type_eq_int {v : Value} (h : v.type = .int) :
    v.toInt = Int.bmod v.raw 0x100000000 := by
  simp only [Value.toInt, h, VarType.int]

theorem Value.toInt_of_type_eq_uint {v : Value} (h : v.type = .uint) :
    v.toInt = v.raw % 0x100000000 := by
  simp only [Value.toInt, h, VarType.uint]

theorem Value.toInt_of_type_eq_object {v : Value} (h : v.type = .object) :
    v.toInt = Int.bmod v.raw 0x10000000000000000 := by
  simp only [Value.toInt, h, VarType.object]

/-- Data of up to eight bytes is read as the number that it was written for. -/
theorem Value.raw_littleEndian (type : VarType) {count n : Nat} (hcount : count ≤ 8)
    (hn : n < 256 ^ count) : (Value.mk type (Text.littleEndian count n)).raw = n := by
  rw [Value.raw, List.take_of_length_le (by simpa using hcount), Text.ofLittleEndian_littleEndian,
    Nat.mod_eq_of_lt hn]

/-- An int holds the low 32 bits of a number. -/
theorem Value.toInt_ofInt (n : Int) : (Value.ofInt n).toInt = Int.bmod n 0x100000000 := by
  have hraw : (Value.ofInt n).raw = (n % 0x100000000).toNat :=
    Value.raw_littleEndian .int (by decide) (by omega)
  have hlow : ((n % 0x100000000).toNat : Int) = n % 0x100000000 := by omega
  rw [Value.toInt_of_type_eq_int rfl, hraw, hlow]
  exact Int.emod_bmod n 0x100000000

/-- A uint holds the low 32 bits of a number. -/
theorem Value.toInt_ofUint (n : Int) : (Value.ofUint n).toInt = n % 0x100000000 := by
  have hraw : (Value.ofUint n).raw = (n % 0x100000000).toNat :=
    Value.raw_littleEndian .uint (by decide) (by omega)
  rw [Value.toInt_of_type_eq_uint rfl, hraw]
  omega

/-- An object holds the low 64 bits of a number. -/
theorem Value.toInt_ofHandle (n : Int) :
    (Value.ofHandle n).toInt = Int.bmod n 0x10000000000000000 := by
  have hraw : (Value.ofHandle n).raw = (n % 0x10000000000000000).toNat :=
    Value.raw_littleEndian .object (by decide) (by omega)
  have hlow : ((n % 0x10000000000000000).toNat : Int) = n % 0x10000000000000000 := by omega
  rw [Value.toInt_of_type_eq_object rfl, hraw, hlow]
  exact Int.emod_bmod n 0x10000000000000000

/-- An int looks at the low 32 bits of a number only. -/
theorem Value.ofInt_congr {m n : Int} (h : m % 0x100000000 = n % 0x100000000) : ofInt m = ofInt n := by
  rw [ofInt, h, ← ofInt]

theorem Value.ofUint_congr {m n : Int} (h : m % 0x100000000 = n % 0x100000000) :
    ofUint m = ofUint n := by
  rw [ofUint, h, ← ofUint]

/-- An object looks at the low 64 bits of a number only. -/
theorem Value.ofHandle_congr {m n : Int} (h : m % 0x10000000000000000 = n % 0x10000000000000000) :
    ofHandle m = ofHandle n := by
  rw [ofHandle, h, ← ofHandle]

/-- A number is kept by an int exactly if it has 32 bits. -/
theorem Value.toInt_ofInt_eq_iff (n : Int) :
    (Value.ofInt n).toInt = n ↔ -0x80000000 ≤ n ∧ n < 0x80000000 := by
  rw [Value.toInt_ofInt, Int.bmod_def]
  split <;> omega

/-! ## Tables of values -/

/-- The variables of a table with their types. -/
def Table.types (t : Table Id Value) : List (Id × VarType) := t.map fun entry => (entry.1, entry.2.type)

/-- Every value in a table has a known type. -/
def Table.Known (t : Table Id Value) : Prop :=
  ∀ id v, t.get? id = some v → v.type.isKnown = true

theorem Table.Known.set {t : Table Id Value} (h : t.Known) {id : Id} {v : Value}
    (hv : v.type.isKnown = true) : Table.Known (t.set id v) := by
  intro id' v' hget
  rw [Table.get?_set] at hget
  split at hget
  · exact Option.some.inj hget ▸ hv
  · exact h id' v' hget

theorem Table.Known.erase {t : Table Id Value} (h : t.Known) (id : Id) :
    Table.Known (t.erase id) := by
  intro id' v' hget
  rw [Table.get?_erase] at hget
  split at hget
  · cases hget
  · exact h id' v' hget

theorem Table.types_set {t : Table Id Value} {id : Id} {old v : Value} (hget : t.get? id = some old)
    (htype : v.type = old.type) : Table.types (t.set id v) = t.types := by
  induction t with
  | nil => cases hget
  | cons entry t ih =>
      by_cases hkey : entry.1 = id
      · obtain rfl : entry.2 = old := by simpa [Table.get?, hkey] using hget
        simp [Table.set, Table.types, hkey, htype]
      · have hrest : Table.get? t id = some old := by simpa [Table.get?, hkey] using hget
        simpa [Table.set, Table.types, hkey] using ih hrest

/-- The type of a variable can be looked up among the types of its table. -/
theorem Table.get?_types (t : Table Id Value) (id : Id) :
    Table.get? t.types id = (t.get? id).map (·.type) := by
  simp only [Table.get?, Table.types, List.find?_map, Option.map_map]
  rfl

theorem Table.Known.of_types {t t' : Table Id Value} (h : t.Known) (htypes : t'.types = t.types) :
    t'.Known := by
  intro id v hget
  have htype : (t.get? id).map (·.type) = some v.type := by
    rw [← Table.get?_types, ← htypes, Table.get?_types, hget]
    rfl
  obtain ⟨old, hold, hsame⟩ := Option.map_eq_some_iff.1 htype
  exact hsame ▸ h id old hold

end TickScript
