import TickScript.Proofs.Listing.Operands
import TickScript.Proofs.Literal
import TickScript.Proofs.Number.Single
import TickScript.Proofs.Text.Runes

/-!
# What variables start with

The section of a field or variable of a compiled unit holds the zero of its type or the value of a
literal. These are few kinds of values: the compiler never stores a bool other than zero and one, it
refuses a float beyond the 32-bit format, and no literal spells an infinity or not a number, since a
float literal has a point. So the floats of a unit are finite when it starts.

The kinds are those of `Value.Starts`, one constructor each. That a literal gives one of them is a
case split on the shape of the literal and on the type; the only case with an argument is that of
floats, where the text has to be known to have a point and the rounded number not to be an infinity.
-/

namespace TickScript

namespace Number

/-! ## Texts of numbers -/

theorem Real.round_ne_notANumber (f : Format) (negative : Bool) (num den : Nat) :
    Real.round f negative num den ≠ .notANumber := by
  unfold Real.round
  split
  · exact Real.noConfusion
  · simp only
    generalize (if Real.nearest _ _ == _ then _ else _ : Nat × Int) = rounded
    split <;> exact Real.noConfusion

/-- A written number is rounded to a float that is a number, or to an infinity. -/
theorem Scientific.round_ne_notANumber (f : Format) (s : Scientific) : s.round f ≠ .notANumber := by
  have hround (num den : Nat) : Real.round f s.negative num den ≠ .notANumber :=
    Real.round_ne_notANumber f s.negative num den
  unfold Scientific.round
  split
  · exact Real.noConfusion
  split
  · simp only
    split
    · exact Real.noConfusion
    split
    · exact Real.noConfusion
    · simp only [Real.roundTo]
      split <;> exact hround _ _
  · simp only
    split
    · exact Real.noConfusion
    split
    · exact Real.noConfusion
    split <;> exact hround _ _

/-- Only the name of it reads as not a number. -/
theorem parse_ne_notANumber {f : Format} {t : Text} (hname : Text.equalFold "nan" t = false) {x : Real}
    (h : parse f t = .ok x) : x ≠ .notANumber := by
  unfold parse at h
  split at h
  · next y hnamed =>
      obtain rfl := Except.ok.inj h
      simp only [named?, hname, Bool.false_eq_true, if_false] at hnamed
      split at hnamed
      · obtain rfl := Option.some.inj hnamed
        exact Real.noConfusion
      · cases hnamed
  · split at h
    · cases h
    · next s _ =>
        split at h
        · cases h
        · obtain rfl := Except.ok.inj h
          exact s.round_ne_notANumber f

end Number

open Number (Real)

/-- The values that a compiled variable can start with. -/
inductive Value.Starts : Value → Prop
  /-- A whole number of a type that holds one. -/
  | number {type : VarType} (h : type ∈ [VarType.object, .int, .uint]) (n : Int) :
    Starts (type.valueOf n)
  /-- A string. -/
  | text (t : Text) : Starts (.ofText t)
  /-- A number with a fraction that a float can hold. -/
  | float {x : Number.Real} : x.StaysFinite .single → Starts (.ofReal x)
  /-- A truth value. -/
  | truth (b : Bool) : Starts (.ofBool b)

namespace Value

/-- Such values have the bytes that their types ask for. -/
theorem Starts.wellFormed {v : Value} (h : v.Starts) : v.WellFormed := by
  cases h with
  | number h n => exact (Listing.valueOf_keeps h n).1
  | text t => exact wellFormed_ofText t
  | float => exact wellFormed_ofReal _
  | truth b => exact wellFormed_ofBool b

/-- A variable has neither of the types that no declaration can name. -/
theorem Starts.not_invalid {v : Value} (h : v.Starts) : (v.type = .invalid || v.type = .void) = false := by
  cases h with
  | @number type h n =>
      rw [(Listing.valueOf_keeps h n).2.1]
      simp only [List.mem_cons, List.not_mem_nil, or_false] at h
      rcases h with rfl | rfl | rfl <;> rfl
  | _ => rfl

theorem starts_ofHandle (n : Int) : (ofHandle n).Starts := .number (show VarType.object ∈ _ by decide) n

theorem starts_ofInt (n : Int) : (ofInt n).Starts := .number (show VarType.int ∈ _ by decide) n

theorem starts_ofUint (n : Int) : (ofUint n).Starts := .number (show VarType.uint ∈ _ by decide) n

/-- Every type that can be stored has a zero of one of these kinds. -/
theorem starts_zero {t : VarType} (h : t.Storable) : (zero t).Starts := by
  rcases h.cases with rfl | rfl | rfl | rfl | rfl | rfl
  · exact starts_ofHandle _
  · exact .text []
  · exact .float ⟨false, 0, 0, rfl, by decide, by decide⟩
  · exact .truth false
  · exact starts_ofInt 0
  · exact starts_ofUint 0

end Value

namespace Expr

/-! ## Literals -/

/-- An integer literal is read for its type and written in the bytes of that type. -/
theorem starts_integerLiteral {n : Int} (hn : n.natAbs ≤ 2 ^ 63) {t : VarType} {v : Value}
    (h : integerLiteral n t = .ok v) : v.Starts := by
  unfold integerLiteral at h
  split at h
  · split at h
    · cases h
    · obtain rfl := Except.ok.inj h
      exact Value.starts_ofInt n
  · split at h
    · cases h
    · split at h
      · cases h
      · obtain rfl := Except.ok.inj h
        exact Value.starts_ofUint n
  · obtain rfl := Except.ok.inj h
    exact .float (Real.staysFinite_ofInt hn)
  · obtain rfl := Except.ok.inj h
    exact .truth _
  · obtain rfl := Except.ok.inj h
    exact Value.starts_ofHandle n
  · cases h

/-- A float literal is finite or refused. -/
theorem starts_realLiteral {x : Number.Real} (hx : x ≠ .notANumber) {t : VarType} {v : Value}
    (h : realLiteral x t = .ok v) : v.Starts := by
  unfold realLiteral at h
  split at h
  · split at h
    · cases h
    · next hinside =>
        obtain rfl := Except.ok.inj h
        rw [Bool.not_eq_true] at hinside
        cases x with
        | notANumber => exact absurd rfl hx
        | infinite negative => cases hinside
        | finite negative m e => exact .float (Real.staysFinite_of_exceedsSingle hinside)
  · obtain rfl := Except.ok.inj h
    exact .truth _
  · cases h

/-- An integer literal has 64 bits. -/
theorem natAbs_integerValue_le {e : Expr} {n : Int} (h : e.integerValue = .ok n) :
    n.natAbs ≤ 2 ^ 63 := by
  simp only [integerValue] at h
  split at h
  · next m hread =>
      obtain ⟨-, -, -, hlow, hhigh⟩ := Listing.signedBy_ok_iff.1 hread
      obtain rfl := Except.ok.inj h
      split <;> omega
  · cases h

/-- A text with a point does not spell that it is not a number. -/
theorem realValue_ne_notANumber {e : Expr} (hshape : e.literalType? = some .float) {x : Number.Real}
    (h : e.realValue = .ok x) : x ≠ .notANumber := by
  have hpoint : 0x2E ∈ e.numberParts.2 := by
    have hnumber {t : Token} (htype : numberType t = .float) : 0x2E ∈ t.text := by
      unfold numberType at htype
      split at htype
      · next hcontains => exact List.contains_iff_mem.1 hcontains
      · cases htype
    generalize hfloat : VarType.float = shape at hshape
    cases isLiteral_of_literalType? hshape with
    | number t => exact hnumber hfloat.symm
    | signed t => exact hnumber hfloat.symm
    | string | truth | object => cases hfloat
  have hname : Text.equalFold "nan" e.numberParts.2 = false := by
    rw [Bool.eq_false_iff]
    intro hfold
    exact Text.not_mem_of_equalFold hfold (by decide) (by decide) hpoint
  simp only [realValue] at h
  split at h
  · next y hread =>
      have hy := Number.parse_ne_notANumber hname hread
      obtain rfl := Except.ok.inj h
      split
      · cases y with
        | notANumber => exact absurd rfl hy
        | infinite | finite => exact Number.Real.noConfusion
      · exact hy
  · cases h

/-- A truth value is stored as zero or one in every type that takes it. -/
theorem starts_convert_ofBool {t : VarType} (ht : t.Storable) (hstring : t ≠ .string)
    (hobject : t ≠ .object) (b : Bool) : ((Value.ofBool b).convert t).Starts := by
  rcases ht.cases with rfl | rfl | rfl | rfl | rfl | rfl
  · exact absurd rfl hobject
  · exact absurd rfl hstring
  · have hreal : (Value.ofBool b).toReal = (Real.ofInt (if b then 1 else 0)).roundTo .double := by
      cases b <;> rfl
    show (Value.ofReal (Value.ofBool b).toReal).Starts
    rw [hreal]
    exact .float (Real.staysFinite_ofInt (by cases b <;> decide))
  · exact .truth b
  · exact Value.starts_ofInt _
  · exact Value.starts_ofUint _

/-- A literal of any shape is one of these values. -/
theorem starts_literal {e : Expr} {t : VarType} (ht : t.Storable) {v : Value}
    (h : e.literal t = .ok v) : v.Starts := by
  -- numerals go through the integer or through the real they stand for
  have hint (hshape : e.literalType? = some .int) : v.Starts := by
    rw [literal_of_int hshape] at h
    cases hn : e.integerValue with
    | error error => simp [hn, Except.bind] at h
    | ok n =>
        rw [hn] at h
        exact starts_integerLiteral (natAbs_integerValue_le hn) h
  have hfloat (hshape : e.literalType? = some .float) : v.Starts := by
    rw [literal_of_float hshape] at h
    cases hx : e.realValue with
    | error error => simp [hx, Except.bind] at h
    | ok x =>
        rw [hx] at h
        exact starts_realLiteral (realValue_ne_notANumber hshape hx) h
  have hnumber {token : Token} (hshape : e.literalType? = some (numberType token)) : v.Starts := by
    rcases numberType_cases token with htype | htype
    · exact hint (htype ▸ hshape)
    · exact hfloat (htype ▸ hshape)
  -- only what has the shape of a literal has a value
  cases hshape : e.literalType? with
  | none =>
      unfold literal at h
      rw [hshape] at h
      cases h
  | some shape =>
      cases isLiteral_of_literalType? hshape with
      | number token => exact hnumber hshape
      | signed token => exact hnumber hshape
      | string opening value =>
          rw [literal_string] at h
          split at h
          · obtain rfl := Except.ok.inj h
            exact .text value
          · cases h
      | @truth token hkind =>
          rw [literal_truth hkind] at h
          split at h
          · cases h
          · next htype =>
              obtain rfl := Except.ok.inj h
              obtain ⟨hstring, hobject⟩ := not_or.1 htype
              exact starts_convert_ofBool ht hstring hobject _
      | object =>
          unfold literal at h
          rw [hshape] at h
          cases h

end Expr

/-! ## Units -/

/-- The section of a variable of a compiled unit. -/
theorem compile_starts {store : FileStore} {options : CompileOptions}
    {sources : List Macros.Source} {history : List Text} {script : Script}
    (h : (compile store options sources history).script? = some script) {s : Section}
    (hs : s ∈ script.sections) (hkind : s.kind ≠ .function) : (s.kind = .field ∨ s.kind = .var)
      ∧ 0 ≤ s.id.toInt ∧ ∃ v : Value, v.Starts ∧ s.data = v.toPayload := by
  have hproper := compile_proper h
  obtain ⟨-, -, -, final, hgenerated, -⟩ := compile_clean h
  unfold Gen.generate at hgenerated
  obtain ⟨_, s₁, -, hsections⟩ := hgenerated.bind_inv (Gen.attentive_declareAll _)
  obtain ⟨d, hd, before, after, hdecl⟩ := Gen.sections_mem _ hsections s hs
  have hvariable {kind : SectionKind} {d : VarDecl} (hd : d.Proper) (hid : d.id = Name.id d.name)
      (h : Stage.Clean (Gen.variableSection kind d) before (some s) after) : s.kind = kind
        ∧ 0 ≤ s.id.toInt ∧ ∃ v : Value, v.Starts ∧ s.data = v.toPayload := by
    obtain ⟨-, v, hv, hsection⟩ := Gen.variableSection_inv h
    obtain rfl := Option.some.inj hsection
    refine ⟨rfl, by rw [hid]; exact Name.id_nonneg _, v, ?_, rfl⟩
    rcases hv with rfl | ⟨init, hliteral⟩
    · exact Value.starts_zero hd.type
    · exact Expr.starts_literal hd.type hliteral
  cases d with
  | field d =>
      obtain ⟨hfield, hrest⟩ := hvariable (hproper _ hd).1 (hproper _ hd).2 hdecl
      exact ⟨.inl hfield, hrest⟩
  | var d =>
      obtain ⟨hvar, hrest⟩ := hvariable (hproper _ hd).1 (hproper _ hd).2 hdecl
      exact ⟨.inr hvar, hrest⟩
  | function f =>
      simp only [Gen.declSection] at hdecl
      split at hdecl
      · cases (Stage.clean_pure.mp hdecl).1
      · obtain ⟨code, _, -, hdecl⟩ := hdecl.bind_inv (Gen.attentive_functionCode f _)
        obtain rfl := Option.some.inj (Stage.clean_pure.mp hdecl).1
        exact absurd rfl hkind

end TickScript
