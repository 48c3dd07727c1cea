import Mathlib.Data.Int.Bitwise
import TickScript.Proofs.Machine.Instruction
import TickScript.Proofs.Value

/-!
# Integer arithmetic modulo 2 ^ 32

Between integers the machine computes in 64-bit words and keeps 32 bits of what comes out. Nothing of
the wider words can be seen: an operation on words is the operation on their numbers modulo `2 ^ 64`
(`onInts_eq`), and `2 ^ 32` divides that, so the result is that of exact arithmetic on the numbers of
the operands, cut to 32 bits once.

Both kinds of integers go through the same words. An unsigned number is not sign-extended and a
signed one is, and because the low half of a sum, a product or a shift does not depend on the upper
halves of the operands this makes no difference to the result. Division is where it would: a
quotient depends on the whole words, so there the numbers of the operands are used, not their
residues.
-/

namespace TickScript

/-! ## Words of integers -/

/-- The bits of a word are those of the integer that it is made from. -/
theorem getLsbD_ofInt (w : Nat) (x : Int) (k : Nat) :
    (BitVec.ofInt w x).getLsbD k = (decide (k < w) && x.testBit k) := by
  cases x with
  | ofNat n => simp [Int.testBit, BitVec.getLsbD_ofNat]
  | negSucc n =>
      rw [BitVec.ofInt_negSucc_eq_not_ofNat, BitVec.getLsbD_not, BitVec.getLsbD_ofNat]
      by_cases hk : k < w <;> simp [Int.testBit, hk]

/-- A word is known by its number, which need only be right modulo the size of a word. -/
theorem eq_ofInt_of_bmod {r : Int64} {n : Int} (h : r.toInt = n.bmod (2 ^ 64)) : r = Int64.ofInt n := by
  apply Int64.toInt.inj
  rw [h]
  exact Int64.toInt_ofInt.symm

/-- A word is known by its bits. -/
theorem eq_ofInt_of_testBit {r : Int64} {n : Int}
    (h : ∀ k < 64, r.toBitVec.getLsbD k = n.testBit k) : r = Int64.ofInt n := by
  apply Int64.toBitVec_inj.1
  apply BitVec.eq_of_getLsbD_eq
  intro k hk
  rw [h k hk, Int64.toBitVec_ofInt, getLsbD_ofInt, decide_eq_true hk, Bool.true_and]

/-- The bits of a word are those of the integer that it stands for. -/
theorem getLsbD_toBitVec (x : Int64) {k : Nat} (hk : k < 64) :
    x.toBitVec.getLsbD k = x.toInt.testBit k := by
  have hbits := getLsbD_ofInt 64 x.toInt k
  rwa [decide_eq_true hk, Bool.true_and, ← Int64.toBitVec_ofInt, Int64.ofInt_toInt] at hbits

/-- The bitwise operations are those of the integers. -/
theorem and_eq_ofInt (x y : Int64) : x &&& y = Int64.ofInt (x.toInt.land y.toInt) := by
  apply eq_ofInt_of_testBit
  intro k hk
  rw [Int64.toBitVec_and, BitVec.getLsbD_and, Int.testBit_land, getLsbD_toBitVec x hk,
    getLsbD_toBitVec y hk]

theorem or_eq_ofInt (x y : Int64) : x ||| y = Int64.ofInt (x.toInt.lor y.toInt) := by
  apply eq_ofInt_of_testBit
  intro k hk
  rw [Int64.toBitVec_or, BitVec.getLsbD_or, Int.testBit_lor, getLsbD_toBitVec x hk,
    getLsbD_toBitVec y hk]

theorem xor_eq_ofInt (x y : Int64) : x ^^^ y = Int64.ofInt (x.toInt.xor y.toInt) := by
  apply eq_ofInt_of_testBit
  intro k hk
  rw [Int64.toBitVec_xor, BitVec.getLsbD_xor, Int.testBit_lxor, getLsbD_toBitVec x hk,
    getLsbD_toBitVec y hk]

/-- The low six bits of a distance are the distance modulo 64. -/
theorem toNat_shiftDistance (y : Int64) :
    ((y &&& 63).toBitVec.smod 64).toNat = (y.toInt % 64).toNat := by
  have hmask : (y &&& 63).toBitVec.toNat = y.toBitVec.toNat % 64 := by
    rw [Int64.toBitVec_and, BitVec.toNat_and]
    exact Nat.and_two_pow_sub_one_eq_mod _ 6
  have hmsb : (y &&& 63).toBitVec.msb = false := by
    rw [BitVec.msb_eq_decide, hmask, decide_eq_false_iff_not]
    omega
  have hwidth : (64 : BitVec 64).msb = false := by decide
  have hint := BitVec.toInt_eq_toNat_cond y.toBitVec
  rw [Int64.toInt_toBitVec] at hint
  rw [BitVec.smod_eq, hmsb, hwidth]
  show (BitVec.umod _ _).toNat = _
  rw [BitVec.umod_eq, BitVec.toNat_umod, hmask]
  show y.toBitVec.toNat % 64 % 64 = _
  split at hint <;> omega

/-- A shift to the left is a multiplication, the distance taken modulo 64. -/
theorem shiftLeft_eq_ofInt (x y : Int64) :
    x <<< (y &&& 63) = Int64.ofInt (x.toInt * 2 ^ (y.toInt % 64).toNat) := by
  have hpower (k : Nat) : BitVec.ofInt 64 (2 ^ k) = BitVec.twoPow 64 k := by
    apply BitVec.eq_of_toNat_eq
    rw [BitVec.toNat_twoPow, BitVec.toNat_ofInt]
    norm_cast
  apply Int64.toBitVec_inj.1
  rw [Int64.toBitVec_shiftLeft, BitVec.shiftLeft_eq', toNat_shiftDistance,
    BitVec.shiftLeft_eq_mul_twoPow, ← hpower, Int64.toBitVec_ofInt, BitVec.ofInt_mul,
    ← Int64.toInt_toBitVec x, BitVec.ofInt_toInt]

/-- A shift to the right is a division that rounds down. -/
theorem shiftRight_eq_ofInt (x y : Int64) :
    x >>> (y &&& 63) = Int64.ofInt (x.toInt.fdiv (2 ^ (y.toInt % 64).toNat)) := by
  have hpower : (0 : Int) ≤ 2 ^ (y.toInt % 64).toNat := Int.pow_nonneg (by decide)
  have hnumber : (x >>> (y &&& 63)).toInt = x.toInt.fdiv (2 ^ (y.toInt % 64).toNat) := by
    rw [← Int64.toInt_toBitVec, Int64.toBitVec_shiftRight, BitVec.sshiftRight_eq', toNat_shiftDistance,
      BitVec.toInt_sshiftRight, Int.shiftRight_eq_div_pow, Int.fdiv_eq_ediv_of_nonneg _ hpower,
      Int64.toInt_toBitVec]
    norm_cast
  rw [← hnumber, Int64.ofInt_toInt]

/-! ## Exact results -/

namespace BinaryOp

/-- Whether the operation divides. -/
def divides : BinaryOp → Bool
  | div => true
  | mod => true
  | _ => false

/-- The operation on numbers. A quotient is cut toward zero, a remainder has the sign of the dividend,
and a shift looks at its distance modulo 64. -/
def exact : BinaryOp → Int → Int → Int
  | add, x, y => x + y
  | sub, x, y => x - y
  | mul, x, y => x * y
  | div, x, y => x.tdiv y
  | mod, x, y => x.tmod y
  | and, x, y => x.land y
  | or, x, y => x.lor y
  | xor, x, y => x.xor y
  | shiftLeft, x, y => x * 2 ^ (y % 64).toNat
  | shiftRight, x, y => x.fdiv (2 ^ (y % 64).toNat)

/-- The operation on words is the one on their numbers, up to the size of a word. -/
theorem onInts_eq (op : BinaryOp) (x y : Int64) :
    op.onInts x y = if op.divides = true ∧ y.toInt = 0 then none
      else some (Int64.ofInt (op.exact x.toInt y.toInt)) := by
  have hzero : y = 0 ↔ y.toInt = 0 := ⟨fun h => h ▸ rfl, fun h => Int64.toInt.inj h⟩
  have hdiv : x / y = Int64.ofInt (x.toInt.tdiv y.toInt) := eq_ofInt_of_bmod (Int64.toInt_div x y)
  have hmod : x % y = Int64.ofInt (x.toInt.tmod y.toInt) := by
    rw [← Int64.toInt_mod, Int64.ofInt_toInt]
  cases op with
  | add => simp [onInts, divides, exact, Int64.ofInt_add]
  | sub => simp [onInts, divides, exact, Int64.ofInt_sub]
  | mul => simp [onInts, divides, exact, Int64.ofInt_mul]
  | div => simp [onInts, divides, exact, hzero, hdiv]
  | mod => simp [onInts, divides, exact, hzero, hmod]
  | and => simp [onInts, divides, exact, and_eq_ofInt]
  | or => simp [onInts, divides, exact, or_eq_ofInt]
  | xor => simp [onInts, divides, exact, xor_eq_ofInt]
  | shiftLeft => simp [onInts, divides, exact, shiftLeft_eq_ofInt]
  | shiftRight => simp [onInts, divides, exact, shiftRight_eq_ofInt]

end BinaryOp

/-! ## Integral values -/

namespace Value

/-- An int, a uint or a bool with all its data. -/
structure Integral (v : Value) : Prop extends WellFormed v where
  kind : v.type = .int ∨ v.type = .uint ∨ v.type = .bool

/-- The number that the data of an integral value spells, in two's complement for an int. -/
def number (v : Value) : Int :=
  if v.type = .int then Int.bmod (Text.ofLittleEndian v.data) 0x100000000
  else Text.ofLittleEndian v.data

/-- What an integral type of 32 bits keeps of a number. -/
def reduce (t : VarType) (n : Int) : Int :=
  if t = .uint then n % 0x100000000 else Int.bmod n 0x100000000

variable {v : Value}

/-- The integer types have at most four bytes. -/
theorem Integral.length_le (h : v.Integral) : v.data.length ≤ 4 := by
  rcases h.kind with htype | htype | htype
  · exact (h.size 4 (by rw [htype]; rfl)).le
  · exact (h.size 4 (by rw [htype]; rfl)).le
  · exact (h.size 1 (by rw [htype]; rfl)).le.trans (by decide)

/-- The number lies between the least int and the greatest uint. -/
theorem Integral.number_bounds (h : v.Integral) :
    -0x80000000 ≤ v.number ∧ v.number < 0x100000000 := by
  have hdata : Text.ofLittleEndian v.data < 256 ^ 4 :=
    (Text.ofLittleEndian_lt v.data).trans_le (Nat.pow_le_pow_right (by decide) h.length_le)
  rw [number]
  split
  · rw [Int.bmod_def]
    split <;> omega
  · omega

/-- Reading the value as an integer gives the number. -/
theorem Integral.toInt_eq (h : v.Integral) : v.toInt = v.number := by
  have hraw : v.raw = Text.ofLittleEndian v.data := by
    rw [raw, List.take_of_length_le (h.length_le.trans (by decide))]
  have hdata := Text.ofLittleEndian_lt v.data
  rcases h.kind with htype | htype | htype
  · rw [toInt_of_type_eq_int htype, hraw, number, if_pos htype]
  · have hlength : v.data.length = 4 := h.size 4 (by rw [htype]; rfl)
    rw [hlength] at hdata
    simp only [toInt, number, htype, hraw]
    exact Int.emod_eq_of_lt (by omega) (by omega)
  · have hlength : v.data.length = 1 := h.size 1 (by rw [htype]; rfl)
    rw [hlength] at hdata
    simp only [toInt, number, htype, hraw]
    exact Int.emod_eq_of_lt (by omega) (by omega)

theorem integral_ofInt (n : Int) : (ofInt n).Integral := ⟨wellFormed_ofInt n, .inl rfl⟩

theorem integral_ofUint (n : Int) : (ofUint n).Integral := ⟨wellFormed_ofUint n, .inr (.inl rfl)⟩

/-- The number of an int is what 32 bits keep, with the sign. -/
theorem number_ofInt (n : Int) : (ofInt n).number = reduce .int n := by
  rw [← (integral_ofInt n).toInt_eq, toInt_ofInt]
  rfl

/-- The number of an uint is what 32 bits keep. -/
theorem number_ofUint (n : Int) : (ofUint n).number = reduce .uint n := by
  rw [← (integral_ofUint n).toInt_eq, toInt_ofUint]
  rfl

end Value

/-! ## Arithmetic on values -/

/-- The low 32 bits of a word are those of the number that it is made from. -/
theorem toInt_ofInt_emod (n : Int) : (Int64.ofInt n).toInt % 0x100000000 = n % 0x100000000 := by
  have hdvd : (0x100000000 : Int) ∣ 2 ^ 64 := by decide
  calc (Int64.ofInt n).toInt % 0x100000000
      = Int.bmod n (2 ^ 64) % ((2 ^ 64 : Nat) : Int) % 0x100000000 := by
        rw [Int64.toInt_ofInt]
        exact (Int.emod_emod_of_dvd _ hdvd).symm
    _ = n % 0x100000000 := by
        rw [Int.bmod_emod]
        exact Int.emod_emod_of_dvd n hdvd

/-- On integral values an operation is the exact one, cut to 32 bits. -/
theorem BinaryOp.apply_eq (op : BinaryOp) {a b : Value} (ha : a.Integral) (hb : b.Integral) :
    op.apply a b = if op.divides = true ∧ b.number = 0 then none
      else some (if a.type = .uint ∧ b.type = .uint then .ofUint (op.exact a.number b.number)
        else .ofInt (op.exact a.number b.number)) := by
  have hplain {v : Value} (hv : v.Integral) : v.type ≠ .string ∧ v.type ≠ .float := by
    rcases hv.kind with h | h | h <;> rw [h] <;> decide
  have hword {v : Value} (hv : v.Integral) : (Int64.ofInt v.number).toInt = v.number := by
    have hbounds := hv.number_bounds
    exact Int64.toInt_ofInt_of_le (by omega) (by omega)
  have hint (n : Int) : Value.ofInt (Int64.ofInt n).toInt = .ofInt n :=
    Value.ofInt_congr (toInt_ofInt_emod n)
  have huint (n : Int) : Value.ofUint (Int64.ofInt n).toInt = .ofUint n :=
    Value.ofUint_congr (toInt_ofInt_emod n)
  obtain ⟨hleft, hleft'⟩ := hplain ha
  obtain ⟨hright, hright'⟩ := hplain hb
  simp only [apply, hleft, hleft', hright, hright', ha.toInt_eq, hb.toInt_eq, onInts_eq, hword ha,
    hword hb, decide_false, Bool.or_false, Bool.and_false, Bool.false_eq_true, if_false,
    Bool.and_eq_true, decide_eq_true_eq]
  by_cases hzero : op.divides = true ∧ b.number = 0
  · rw [if_pos hzero, if_pos hzero, Option.map_none]
  · rw [if_neg hzero, if_neg hzero, Option.map_some, hint, huint]

/-- Integer arithmetic is exact modulo `2 ^ 32`. Every arithmetic opcode carries out an operation that
fails on an int, a uint or a bool with all its data exactly when it divides by zero. Otherwise the
result is a uint if both operands are and an int if not, and its number is the exact result on the
numbers of the operands, reduced to the range of its type. -/
theorem arithmetic_exact {opcode : Opcode} (hop : opcode.isArithmetic = true) {a b : Value}
    (ha : a.Integral) (hb : b.Integral) :
    ∃ op, opcode.binary? = some op ∧ (∀ start, Exec.execute start opcode = Exec.arithmetic op)
      ∧ (op.apply a b = none ↔ (opcode = .div ∨ opcode = .mod) ∧ b.number = 0)
      ∧ ∀ v, op.apply a b = some v → v.Integral
        ∧ v.type = (if a.type = .uint ∧ b.type = .uint then .uint else .int)
        ∧ v.number = Value.reduce v.type (op.exact a.number b.number) := by
  obtain ⟨op, hbinary, hexecute, hdivides⟩ : ∃ op, opcode.binary? = some op
      ∧ (∀ start, Exec.execute start opcode = Exec.arithmetic op)
      ∧ (op.divides = true ↔ opcode = .div ∨ opcode = .mod) := by
    cases opcode <;> first | exact ⟨_, rfl, fun _ => rfl, by decide⟩ | cases hop
  refine ⟨op, hbinary, hexecute, ?_, ?_⟩
  · rw [op.apply_eq ha hb, ← hdivides]
    simp
  · intro v hv
    rw [op.apply_eq ha hb] at hv
    split at hv
    · cases hv
    · obtain rfl := Option.some.inj hv
      split
      · exact ⟨Value.integral_ofUint _, rfl, Value.number_ofUint _⟩
      · exact ⟨Value.integral_ofInt _, rfl, Value.number_ofInt _⟩

/-- The least int divided by minus one is the least int again. -/
theorem least_by_minus_one : (Value.ofInt (-0x80000000)).Integral ∧ (Value.ofInt (-1)).Integral
    ∧ ∃ v, BinaryOp.div.apply (.ofInt (-0x80000000)) (.ofInt (-1)) = some v
      ∧ v.type = .int ∧ v.number = -0x80000000 := by
  have hleft := Value.integral_ofInt (-0x80000000)
  have hright := Value.integral_ofInt (-1)
  obtain ⟨op, hop, -, hfails, hgives⟩ := arithmetic_exact (show Opcode.div.isArithmetic = true from rfl)
    hleft hright
  obtain rfl : BinaryOp.div = op := Option.some.inj hop
  have hdivisor : (Value.ofInt (-1)).number ≠ 0 := by decide
  obtain ⟨v, hv⟩ := Option.ne_none_iff_exists'.1 (mt hfails.1 fun h => hdivisor h.2)
  obtain ⟨-, htype, hnumber⟩ := hgives v hv
  rw [if_neg (by decide)] at htype
  refine ⟨hleft, hright, v, hv, htype, ?_⟩
  rw [hnumber, htype]
  decide

end TickScript
