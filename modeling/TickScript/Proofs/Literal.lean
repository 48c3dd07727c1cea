import TickScript.Proofs.Value

/-!
# Literals in the types of variables

A literal can get into a variable on two ways. The compiler knows the type of the variable and makes
a value of it; or the literal is taken for what its own shape says, an int, a float, a bool, and the
machine converts that when the variable is written. The second way needs a value in between, so a
number has to keep to the range of its shape (`Expr.inShape`); apart from that the two ways end in
the same value (`Expr.convert_literal`), with one exception: a float that is not zero counts as true,
but as a 32-bit number it may have become zero (`Expr.vanishes`).

The types are the six that a variable can have and the shapes the five that a literal can have, but
many of the thirty pairs are refused by both ways. The proof goes by the shape: for a number it
follows the number through the value in between, and a literal of another shape is accepted by few
types.
-/

namespace TickScript

open Number (Real)

/-! ## Numbers that lose their last bit -/

/-- Zero of either sign is stored as zero. -/
theorem Value.isZero_ofReal {x : Number.Real} (h : x.isZero = true) :
    (Value.ofReal x).toReal.isZero = true := by
  cases x with
  | notANumber => cases h
  | infinite negative => cases h
  | finite negative m e =>
      obtain rfl : m = 0 := by simpa [Number.Real.isZero] using h
      have hround : (Number.Real.finite negative 0 e).roundTo .single = .finite negative 0 0 := by
        simp only [Number.Real.roundTo]
        split <;> simp [Number.Real.round]
      have hbits : (Number.Real.finite negative 0 e).toBits .single
          = (Number.Real.finite negative 0 0).toBits .single := by
        have hzero : (Number.Real.finite negative 0 0).roundTo .single = .finite negative 0 0 := by
          cases negative <;> rfl
        simp only [Number.Real.toBits, hround, hzero]
      rw [Value.ofReal, hbits]
      cases negative <;> decide

namespace Expr

/-! ## Shapes -/

/-- The integers of 32 bits. -/
def isSmall (n : Int) : Bool := -0x80000000 ≤ n && n < 0x80000000

/-- Whether a number literal keeps to the range of its own shape, whatever it is meant for. Other
literals do. -/
def inShape (e : Expr) : Bool :=
  match e.literalType? with
  | some .int =>
    match e.integerValue with
    | .ok n => isSmall n
    | .error _ => false
  | some .float =>
    match e.realValue with
    | .ok x => !exceedsSingle x
    | .error _ => false
  | _ => true

/-- Whether a float literal is true as a bool, although the nearest 32-bit number is zero. -/
def vanishes (e : Expr) (t : VarType) : Bool :=
  match e.literalType?, t with
  | some .float, .bool =>
    match e.realValue with
    | .ok x => !x.isZero && (Value.ofReal x).toReal.isZero
    | .error _ => false
  | _, _ => false

/-- The literals of a shape. -/
inductive IsLiteral : VarType → Expr → Prop
  /-- A number without a sign. -/
  | number (t : Token) : IsLiteral (numberType t) (.number t)
  /-- A number with a sign in front of it. -/
  | signed {operator : Token} (t : Token) (h : operator.kind = .minus ∨ operator.kind = .plus) :
    IsLiteral (numberType t) (.unary operator (.number t))
  /-- A string. -/
  | string (opening : Token) (value : Text) : IsLiteral .string (.string opening value)
  /-- One of the two truth values. -/
  | truth {t : Token} (h : t.kind = .true ∨ t.kind = .false) : IsLiteral .bool (.word t)
  /-- One of the two words for objects. -/
  | object {t : Token} (h : t.kind = .null ∨ t.kind = .attached) : IsLiteral .object (.word t)

/-- What has the shape of a literal is one of five kinds of expression. -/
theorem isLiteral_of_literalType? {e : Expr} {shape : VarType} (h : e.literalType? = some shape) :
    IsLiteral shape e := by
  cases e with
  | number t => exact Option.some.inj h ▸ .number t
  | unary operator operand =>
      cases operand with
      | number t =>
          simp only [literalType?] at h
          split at h
          · next hsign => exact Option.some.inj h ▸ .signed t (by simpa using hsign)
          · cases h
      | _ => cases h
  | string opening value => exact Option.some.inj h ▸ .string opening value
  | word t =>
      simp only [literalType?] at h
      split at h
      · next hkind => exact Option.some.inj h ▸ .truth (.inl hkind)
      · next hkind => exact Option.some.inj h ▸ .truth (.inr hkind)
      · next hkind => exact Option.some.inj h ▸ .object (.inl hkind)
      · next hkind => exact Option.some.inj h ▸ .object (.inr hkind)
      · cases h
  | _ => cases h

/-- The shape of a number. -/
theorem numberType_cases (t : Token) : numberType t = .int ∨ numberType t = .float := by
  unfold numberType
  split
  · exact .inr rfl
  · exact .inl rfl

/-! ## The value in between -/

/-- A small integer converts to what the literal is for the type. -/
theorem convert_integerLiteral {n : Int} {v : Value} (hsmall : isSmall n = true)
    (hv : integerLiteral n t = .ok v) : (Value.ofInt n).convert t = v := by
  have hrange : -0x80000000 ≤ n ∧ n < 0x80000000 := by simpa [isSmall] using hsmall
  have hback : (Value.ofInt n).toInt = n := (Value.toInt_ofInt_eq_iff n).mpr hrange
  have htype : (Value.ofInt n).type = .int := rfl
  have hreal : (Value.ofInt n).toReal = (Number.Real.ofInt n).roundTo .double := by
    simp [Value.toReal, htype, hback, VarType.int]
  have hbool : (Value.ofInt n).toBool = (n != 0) := by
    simp [Value.toBool, htype, hback, VarType.int]
  -- one case for each type that takes an integer
  unfold integerLiteral at hv
  split at hv
  · split at hv
    · cases hv
    · obtain rfl := Except.ok.inj hv
      exact Value.convert_of_type htype
  · split at hv
    · cases hv
    · split at hv
      · cases hv
      · obtain rfl := Except.ok.inj hv
        simp [Value.convert, htype, hback, VarType.int]
  · obtain rfl := Except.ok.inj hv
    simp [Value.convert, htype, hreal, VarType.int]
  · obtain rfl := Except.ok.inj hv
    simp [Value.convert, htype, hbool, VarType.int]
  · obtain rfl := Except.ok.inj hv
    simp [Value.convert, htype, hback, VarType.int]
  · cases hv

/-- A float converts to what the literal is for the type, unless it vanishes in the rounding and is
asked for its truth. -/
theorem convert_realLiteral {x : Number.Real} {v : Value} (hv : realLiteral x t = .ok v) :
    (Value.ofReal x).convert t
      = if t = .bool ∧ x.isZero = false ∧ (Value.ofReal x).toReal.isZero = true then .ofBool false
        else v := by
  unfold realLiteral at hv
  split at hv
  · split at hv
    · cases hv
    · obtain rfl := Except.ok.inj hv
      rw [if_neg (fun h => absurd h.1 (by decide))]
      exact Value.convert_of_type rfl
  · obtain rfl := Except.ok.inj hv
    have htype : (Value.ofReal x).type = .float := rfl
    have hconvert : (Value.ofReal x).convert .bool = .ofBool (!(Value.ofReal x).toReal.isZero) := by
      simp [Value.convert, Value.toBool, htype, VarType.float, VarType.bool]
    refine hconvert.trans ?_
    cases hzero : x.isZero with
    | true =>
        rw [Value.isZero_ofReal hzero, if_neg (fun h => absurd h.2.1 (by decide))]
    | false =>
        cases hstored : (Value.ofReal x).toReal.isZero with
        | true => exact (if_pos ⟨rfl, rfl, rfl⟩).symm
        | false => exact (if_neg (fun h => absurd h.2.2 (by decide))).symm
  · cases hv

/-! ## Constants -/

theorem integerLiteral_int (n : Int) :
    integerLiteral n .int = if isSmall n then .ok (.ofInt n) else .error (.intOverflow n) := by
  show (if n < -0x80000000 || 0x80000000 ≤ n then _ else _) = _
  by_cases hsmall : isSmall n = true
  · have hrange : -0x80000000 ≤ n ∧ n < 0x80000000 := by simpa [isSmall] using hsmall
    rw [if_pos hsmall, if_neg (by simp; omega)]
  · have hrange : ¬ (-0x80000000 ≤ n ∧ n < 0x80000000) := by simpa [isSmall] using hsmall
    rw [if_neg hsmall, if_pos (by simp; omega)]

/-- What a literal is by its own shape, seen from the value that a type takes it for: a number out of
the range of its shape is nothing, any other constant gives that value once it is converted, unless
it vanishes on the way. -/
def Settles (e : Expr) (t : VarType) (v : Value) : Except LiteralError Value → Prop
  | .ok own => e.inShape = true ∧ own.convert t = if e.vanishes t then .ofBool false else v
  | .error _ => e.inShape = false

variable {e : Expr} {t : VarType} {v : Value}

/-- A literal of integer shape is its integer, read for the type. -/
theorem literal_of_int (h : e.literalType? = some .int) (t : VarType) :
    e.literal t = e.integerValue.bind fun n => integerLiteral n t := by
  unfold literal
  rw [h]
  rfl

/-- A literal of float shape is its real, read for the type. -/
theorem literal_of_float (h : e.literalType? = some .float) (t : VarType) :
    e.literal t = e.realValue.bind fun x => realLiteral x t := by
  unfold literal
  rw [h]
  rfl

/-- Only a string takes a string. -/
theorem literal_string (opening : Token) (value : Text) (t : VarType) :
    (string opening value).literal t
      = if t = .string then .ok (.ofText value) else .error (.mismatch .string t) := by
  have hshape : (string opening value).literalType? = some .string := rfl
  unfold literal
  split
  case h_2 =>
    split
    · next heq =>
        cases heq
        exact (if_pos rfl).symm
    · next hother => exact (if_neg fun h => hother opening value rfl h).symm
  case h_6 hother _ _ _ heq => exact absurd (Option.some.inj (hshape.symm.trans heq)).symm hother
  all_goals
    next heq => exact absurd (hshape.symm.trans heq) (by decide)

/-- A truth value is taken for the number one or zero; strings and objects do not take it. -/
theorem literal_truth {token : Token} (h : token.kind = .true ∨ token.kind = .false) (t : VarType) :
    (word token).literal t = if t = .string ∨ t = .object then .error (.mismatch .bool t)
      else .ok ((Value.ofBool (token.kind = .true)).convert t) := by
  have hshape : (word token).literalType? = some .bool := by
    rcases h with h | h <;> simp [literalType?, h]
  unfold literal
  split
  case h_3 =>
    split
    · rw [if_pos (.inl rfl)]
    · rw [if_pos (.inr rfl)]
    · next heq hstring hobject =>
        cases heq
        exact (if_neg fun h => h.elim hstring hobject).symm
    · next hword => exact absurd rfl (hword token)
  case h_6 _ hother _ _ heq => exact absurd (Option.some.inj (hshape.symm.trans heq)).symm hother
  all_goals
    next heq => exact absurd (hshape.symm.trans heq) (by decide)

/-- A literal of integer shape settles in its own int. -/
theorem settles_int (hshape : e.literalType? = some .int) (hv : e.literal t = .ok v) :
    e.Settles t v (e.literal .int) := by
  have hkeeps : e.vanishes t = false := by
    simp only [vanishes, hshape]
    rfl
  rw [literal_of_int hshape] at hv ⊢
  cases hn : e.integerValue with
  | error error => simp [hn, Except.bind] at hv
  | ok n =>
      rw [hn] at hv
      have hin : e.inShape = isSmall n := by
        simp only [inShape, hshape, hn]
        rfl
      show e.Settles t v (integerLiteral n .int)
      rw [integerLiteral_int]
      cases hsmall : isSmall n with
      | true =>
          refine ⟨hin.trans hsmall, ?_⟩
          rw [hkeeps]
          exact convert_integerLiteral hsmall hv
      | false => exact hin.trans hsmall

/-- A literal of float shape settles in its own float. -/
theorem settles_float (hshape : e.literalType? = some .float) (hv : e.literal t = .ok v) :
    e.Settles t v (e.literal .float) := by
  rw [literal_of_float hshape] at hv ⊢
  cases hx : e.realValue with
  | error error => simp [hx, Except.bind] at hv
  | ok x =>
      rw [hx] at hv
      have hin : e.inShape = !exceedsSingle x := by
        simp only [inShape, hshape, hx]
        rfl
      have hvanishes : e.vanishes t = true
          ↔ t = .bool ∧ x.isZero = false ∧ (Value.ofReal x).toReal.isZero = true := by
        simp only [vanishes, hshape, hx]
        split
        · simp [VarType.bool]
        · next hother => exact iff_of_false (by decide) fun h => hother rfl h.1
      show e.Settles t v (if exceedsSingle x then _ else _)
      cases hexceeds : exceedsSingle x with
      | true => exact hin.trans (by rw [hexceeds]; rfl)
      | false =>
          refine ⟨hin.trans (by rw [hexceeds]; rfl), ?_⟩
          simp only [hvanishes]
          exact convert_realLiteral hv

/-- The constants of every shape. -/
theorem settles_literal {shape : VarType} (hshape : e.literalType? = some shape)
    (hconstant : e.isConstant = true) (hv : e.literal t = .ok v) :
    e.Settles t v (e.literal shape) := by
  -- a number is of either shape, with a sign or without
  have hnumber {token : Token} (h : e.literalType? = some (numberType token)) :
      e.Settles t v (e.literal (numberType token)) := by
    rcases numberType_cases token with htype | htype
    · rw [htype] at h ⊢
      exact settles_int h hv
    · rw [htype] at h ⊢
      exact settles_float h hv
  cases isLiteral_of_literalType? hshape with
  | number token => exact hnumber hshape
  | signed token h => exact hnumber hshape
  | string opening value =>
      rw [literal_string] at hv
      split at hv
      · next htype =>
          obtain rfl := Except.ok.inj hv
          rw [htype]
          exact ⟨rfl, rfl⟩
      · cases hv
  -- a truth value is stored as its number in every type that takes it
  | @truth token h =>
      rw [literal_truth h] at hv ⊢
      split at hv
      · cases hv
      · obtain rfl := Except.ok.inj hv
        refine ⟨by simp only [inShape, hshape]; rfl, ?_⟩
        have hkeeps : vanishes (.word token) t = false := by
          simp only [vanishes, hshape]
          rfl
        have hself (b : Bool) : (Value.ofBool b).convert .bool = .ofBool b := Value.convert_of_type rfl
        rw [hself, hkeeps]
        rfl
  | object h => rcases h with h | h <;> simp [isConstant, h] at hconstant

end Expr

end TickScript
