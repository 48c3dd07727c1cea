import Mathlib.Data.List.Induction
import TickScript.Proofs.Instr
import TickScript.Symbol
import TickScript.Token.Basic

/-!
# Names of local variables

A local variable gets its id from a name that is put together from its function, its own name and
the number of variables that it hides. No information is lost in this: different variables that can
be seen at one place have different qualified names, and no qualified name is the name of a variable
of the unit.

The three parts are the function, the variable's own name and the count. Function and name are
separated by a dot, which no identifier has, and the count stands behind dollar signs, which no
identifier has either. So the parts can be read off the whole, and the ids differ unless the hash of
two different names is the same, which the generator reports.
-/

namespace TickScript

namespace Text

/-- The number that decimal digits spell. -/
def digitsValue (t : Text) : Nat := t.foldl (fun n b => 10 * n + (b.toNat - 48)) 0

/-- A numeral spells its number. -/
theorem digitsValue_ofNat (n : Nat) : digitsValue (ofNat n) = n := by
  have hfold (cs : List Char) (hcs : ∀ c ∈ cs, c.isDigit = true) (start : Nat) :
      (cs.map byte).foldl (fun n b => 10 * n + (b.toNat - 48)) start
        = Nat.ofDigitChars 10 cs start := by
    induction cs generalizing start with
    | nil => simp
    | cons c cs ih =>
        have hc : c.toNat ≤ 57 := by
          have hdigit := hcs c (by simp)
          simp only [Char.isDigit, Bool.and_eq_true, decide_eq_true_eq] at hdigit
          exact hdigit.2
        have hbyte : (byte c).toNat = c.toNat := by
          simp only [byte, Nat.toUInt8, UInt8.toNat_ofNat']
          omega
        rw [List.map_cons, List.foldl_cons, ih (fun d hd => hcs d (by simp [hd])),
          Nat.ofDigitChars_cons, hbyte]
        rfl
  rw [digitsValue, ofNat,
    hfold _ (fun c hc => Nat.isDigit_of_mem_toDigits (by decide) (by decide) hc)]
  exact Nat.ofDigitChars_ten_toDigits

/-- So numerals of different numbers differ. -/
theorem ofNat_injective {a b : Nat} (h : ofNat a = ofNat b) : a = b := by
  rw [← digitsValue_ofNat a, h, digitsValue_ofNat]

end Text

/-! ## Ids -/

/-- The id of a name is not negative. -/
theorem Name.id_nonneg (name : Text) : 0 ≤ (Name.id name).toInt := by
  have hlt : (Name.hash name &&& 0x7FFFFFFFFFFFFFFF).toNat < 2 ^ 63 := by
    rw [UInt64.toNat_and]
    exact Nat.lt_of_le_of_lt Nat.and_le_right (by decide)
  have hword : (Name.id name).toUInt64 = Name.hash name &&& 0x7FFFFFFFFFFFFFFF := rfl
  have hcases := toNat_toUInt64_cases (Name.id name)
  rw [hword] at hcases
  have hlow := (Name.id name).le_toInt
  omega

/-! ## Identifiers -/

/-- An identifier is made of letters, digits and underscores. -/
theorem isWord_of_isIdentifier {name : Text} (h : isIdentifier name = true) :
    ∀ b ∈ name, Text.isWord b = true := by
  cases name with
  | nil => simp [isIdentifier] at h
  | cons first rest =>
      simp only [isIdentifier, Bool.and_eq_true, List.all_eq_true] at h
      exact h.2

/-- There is no dot in an identifier, which is what separates a local from its function. -/
theorem dot_notMem {name : Text} (h : isIdentifier name = true) : (0x2E : UInt8) ∉ name :=
  fun hmem => absurd (isWord_of_isIdentifier h _ hmem) (by decide)

/-- There is no dollar sign in it either, which marks what a local hides. -/
theorem dollar_notMem {name : Text} (h : isIdentifier name = true) : (0x24 : UInt8) ∉ name :=
  fun hmem => absurd (isWord_of_isIdentifier h _ hmem) (by decide)

namespace SymbolTable

/-- What stands behind a variable's own name in its qualified name. -/
def hiddenMark (hidden : Nat) : Text :=
  if hidden == 0 then [] else 0x24 :: Text.ofNat (hidden + 1)

theorem qualifiedName_eq (function name : Text) (hidden : Nat) :
    qualifiedName function name hidden = function ++ 0x2E :: (name ++ hiddenMark hidden) := by
  have hdollar : Text.ofString "$" = [0x24] := by decide
  simp only [qualifiedName, hiddenMark, Name.qualified]
  split
  · simp
  · simp [hdollar]

/-- An identifier can be told apart from the mark behind it. -/
theorem append_hiddenMark_inj {a b : Text} {i j : Nat} (ha : isIdentifier a = true)
    (hb : isIdentifier b = true) (h : a ++ hiddenMark i = b ++ hiddenMark j) : a = b ∧ i = j := by
  have htake (name : Text) (hname : isIdentifier name = true) (hidden : Nat) :
      (name ++ hiddenMark hidden).takeWhile (· != 0x24) = name := by
    have hall : ∀ b ∈ name, (b != 0x24) = true := by
      intro b hmem
      simp only [bne_iff_ne, ne_eq]
      rintro rfl
      exact dollar_notMem hname hmem
    rw [List.takeWhile_append_of_pos hall]
    simp only [hiddenMark]
    split <;> simp
  have hab : a = b := by rw [← htake a ha i, h, htake b hb j]
  subst hab
  have hmark := List.append_cancel_left h
  refine ⟨rfl, ?_⟩
  simp only [hiddenMark] at hmark
  split at hmark
  · next hi =>
      split at hmark
      · next hj => simp_all
      · cases hmark
  · split at hmark
    · cases hmark
    · have hsucc := Text.ofNat_injective (List.cons.inj hmark).2
      omega

/-- The name and the mark can be read off a qualified name. -/
theorem qualifiedName_inj {function a b : Text} {i j : Nat} (ha : isIdentifier a = true)
    (hb : isIdentifier b = true) (h : qualifiedName function a i = qualifiedName function b j) :
    a = b ∧ i = j := by
  rw [qualifiedName_eq, qualifiedName_eq] at h
  exact append_hiddenMark_inj ha hb (List.cons.inj (List.append_cancel_left h)).2

/-- A qualified name has a dot in it, so no identifier is one. -/
theorem qualifiedName_ne_identifier {function name other : Text} {hidden : Nat}
    (h : isIdentifier other = true) : qualifiedName function name hidden ≠ other := by
  rintro rfl
  refine dot_notMem h ?_
  rw [qualifiedName_eq]
  simp

end SymbolTable

/-! ## The variables of a function -/

/-- Variables of a function in order of declaration, each named after those it hides. -/
inductive Named (function : Text) : List Symbol → Prop
  | nil : Named function []
  | snoc {Γ symbol} : Named function Γ → isIdentifier symbol.name = true →
    symbol.qualified = SymbolTable.qualifiedName function symbol.name
      (Γ.countP (·.name == symbol.name)) →
    symbol.id = Name.id symbol.qualified → Named function (Γ ++ [symbol])

namespace Named

variable {function : Text} {Γ : List Symbol}

/-- A variable is named after those that were declared before it. -/
theorem split (h : Named function Γ) {symbol : Symbol} (hmem : symbol ∈ Γ) :
    ∃ before after, Γ = before ++ symbol :: after ∧ isIdentifier symbol.name = true
      ∧ symbol.qualified = SymbolTable.qualifiedName function symbol.name
        (before.countP (·.name == symbol.name))
      ∧ symbol.id = Name.id symbol.qualified := by
  induction h with
  | nil => cases hmem
  | @snoc Γ last _ hname hqualified hid ih =>
      rcases List.mem_append.mp hmem with hmem | hmem
      · obtain ⟨before, after, rfl, hrest⟩ := ih hmem
        exact ⟨before, after ++ [last], by simp, hrest⟩
      · obtain rfl := List.mem_singleton.mp hmem
        exact ⟨Γ, [], rfl, hname, hqualified, hid⟩

/-- A scope that named its variables names those that were there before the last. -/
theorem dropLast {symbol : Symbol} (h : Named function (Γ ++ [symbol])) : Named function Γ := by
  generalize hwhole : Γ ++ [symbol] = whole at h
  cases h with
  | nil => simp at hwhole
  | snoc h =>
      obtain ⟨rfl, -⟩ := List.append_inj' hwhole rfl
      exact h

theorem left {Δ : List Symbol} (h : Named function (Γ ++ Δ)) : Named function Γ := by
  induction Δ using List.reverseRecOn with
  | nil => simpa using h
  | append_singleton Δ last ih => exact ih (dropLast (by simpa using h))

/-- A variable that is declared next gets a qualified name that none of the others has. -/
theorem qualified_ne (h : Named function Γ) {symbol : Symbol} (hmem : symbol ∈ Γ) {name : Text}
    (hname : isIdentifier name = true) :
    symbol.qualified
      ≠ SymbolTable.qualifiedName function name (Γ.countP (·.name == name)) := by
  obtain ⟨before, after, rfl, hident, hqualified, -⟩ := h.split hmem
  intro heq
  rw [hqualified] at heq
  obtain ⟨rfl, hcount⟩ := SymbolTable.qualifiedName_inj hident hname heq
  rw [List.countP_append, List.countP_cons_of_pos (by simp)] at hcount
  omega

theorem qualified_ne_identifier (h : Named function Γ) {symbol : Symbol} (hmem : symbol ∈ Γ)
    {name : Text} (hname : isIdentifier name = true) : symbol.qualified ≠ name := by
  obtain ⟨before, after, rfl, -, hqualified, -⟩ := h.split hmem
  rw [hqualified]
  exact SymbolTable.qualifiedName_ne_identifier hname

end Named

end TickScript
