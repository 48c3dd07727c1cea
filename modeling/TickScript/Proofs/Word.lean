import Mathlib.Algebra.Group.Int.Defs
import Mathlib.Algebra.Group.Nat.Defs
import TickScript.Instr

/-!
# Little-endian words

Numbers become bytes and bytes become numbers without loss: `littleEndian` keeps a number up to the
width it is given, and `ofLittleEndian` takes every text to a number from which the text comes back.
The data of a value is packed into words of eight bytes, the last of which may be short; as many
bytes as went in come out again.

Everything that is stored goes through these words: operands in code, sections in binaries, the data
of values and the values on the operand stack. What is proved here is therefore stated for words of
any number of bytes.
-/

namespace TickScript

namespace Text

@[simp] theorem length_littleEndian (count n : Nat) : (littleEndian count n).length = count := by
  induction count generalizing n with
  | zero => rfl
  | succ count ih => simp [littleEndian, ih]

theorem ofLittleEndian_lt (t : Text) : ofLittleEndian t < 256 ^ t.length := by
  induction t with
  | nil => simp [ofLittleEndian]
  | cons b t ih =>
      have hb := b.toNat_lt
      simp only [ofLittleEndian, List.length_cons, Nat.pow_succ]
      omega

/-- What a word of `count` bytes keeps of a number. -/
theorem ofLittleEndian_littleEndian (count n : Nat) :
    ofLittleEndian (littleEndian count n) = n % 256 ^ count := by
  induction count generalizing n with
  | zero => simp [littleEndian, ofLittleEndian, Nat.mod_one]
  | succ count ih =>
      have hlow : (n % 256).toUInt8.toNat = n % 256 := by
        simp [Nat.toUInt8]
      simp only [littleEndian, ofLittleEndian, ih, hlow]
      rw [Nat.pow_succ', Nat.mod_mul]

theorem littleEndian_ofLittleEndian (t : Text) : littleEndian t.length (ofLittleEndian t) = t := by
  induction t with
  | nil => rfl
  | cons b t ih =>
      have hb := b.toNat_lt
      have hmod : (b.toNat + 256 * ofLittleEndian t) % 256 = b.toNat := by omega
      have hdiv : (b.toNat + 256 * ofLittleEndian t) / 256 = ofLittleEndian t := by omega
      simp only [List.length_cons, ofLittleEndian, littleEndian, hmod, hdiv, ih]
      simp [Nat.toUInt8]

/-- A word of `count` bytes does not look at more than its bytes of a number. -/
theorem littleEndian_mod (count n : Nat) : littleEndian count (n % 256 ^ count) = littleEndian count n := by
  have hback := littleEndian_ofLittleEndian (littleEndian count n)
  rwa [ofLittleEndian_littleEndian, length_littleEndian] at hback

/-- Bytes in front of a number's own do not matter when there are enough of them. -/
theorem littleEndian_add (first more n : Nat) :
    littleEndian (first + more) n = littleEndian first n ++ littleEndian more (n / 256 ^ first) := by
  induction first generalizing n with
  | zero => simp [littleEndian]
  | succ first ih =>
      rw [Nat.succ_add]
      simp only [littleEndian, ih, List.cons_append, Nat.pow_succ', Nat.div_div_eq_div_mul]

theorem littleEndian_eq_append_zeros (t : Text) (more : Nat) :
    littleEndian (t.length + more) (ofLittleEndian t) = t ++ littleEndian more 0 := by
  rw [littleEndian_add, littleEndian_ofLittleEndian, Nat.div_eq_of_lt (ofLittleEndian_lt t)]

end Text

/-! ## Data words -/

/-- The bytes of the words that `chunks` makes: the data, filled up with zeros. -/
theorem packWords_chunks_bytes (fuel : Nat) (data : Text) (h : data.length ≤ fuel) :
    ∃ zeros, (packWords.chunks fuel data).flatMap (fun w => Text.littleEndian 8 w.toNat)
      = data ++ zeros := by
  induction fuel generalizing data with
  | zero =>
      have hnil : data = [] := List.length_eq_zero_iff.mp (by omega)
      exact ⟨[], by simp [hnil, packWords.chunks]⟩
  | succ fuel ih =>
      cases data with
      | nil => exact ⟨[], by simp [packWords.chunks]⟩
      | cons b data =>
          have hlt : Text.ofLittleEndian ((b :: data).take 8) < 2 ^ 64 := by
            have hbound := Text.ofLittleEndian_lt ((b :: data).take 8)
            have hlen : ((b :: data).take 8).length ≤ 8 := List.length_take_le 8 _
            calc Text.ofLittleEndian ((b :: data).take 8)
                < 256 ^ ((b :: data).take 8).length := hbound
              _ ≤ 256 ^ 8 := Nat.pow_le_pow_right (by decide) hlen
              _ = 2 ^ 64 := by decide
          have hword : (UInt64.ofNat (Text.ofLittleEndian ((b :: data).take 8))).toNat
              = Text.ofLittleEndian ((b :: data).take 8) := UInt64.toNat_ofNat_of_lt' hlt
          obtain ⟨zeros, hzeros⟩ := ih ((b :: data).drop 8) (by simp at h ⊢; omega)
          simp only [packWords.chunks, List.flatMap_cons, hword]
          by_cases hshort : (b :: data).length ≤ 8
          · -- The last word: what follows the data is zeros.
            have htake : (b :: data).take 8 = b :: data := List.take_of_length_le hshort
            have hpad := Text.littleEndian_eq_append_zeros (b :: data) (8 - (b :: data).length)
            rw [Nat.add_sub_cancel' hshort] at hpad
            rw [htake, hpad]
            exact ⟨_, by rw [List.append_assoc]⟩
          · have hlen : ((b :: data).take 8).length = 8 := by simp at hshort ⊢; omega
            have hfull := Text.littleEndian_ofLittleEndian ((b :: data).take 8)
            rw [hlen] at hfull
            rw [hfull, hzeros, ← List.append_assoc, List.take_append_drop]
            exact ⟨zeros, rfl⟩

theorem length_packWords_chunks (fuel : Nat) (data : Text) (h : data.length ≤ fuel) :
    (packWords.chunks fuel data).length = (data.length + 7) / 8 := by
  induction fuel generalizing data with
  | zero =>
      have hnil : data = [] := List.length_eq_zero_iff.mp (by omega)
      simp [hnil, packWords.chunks]
  | succ fuel ih =>
      cases data with
      | nil => simp [packWords.chunks]
      | cons b data =>
          simp only [packWords.chunks, List.length_cons]
          rw [ih _ (by simp at h ⊢; omega)]
          simp only [List.length_drop, List.length_cons]
          omega

/-- Packed data has as many words as its size asks for. -/
theorem length_packWords (data : Text) :
    (packWords data).length = (wordCount data.length).toNat := by
  cases data with
  | nil => rfl
  | cons b data =>
      simp only [packWords, List.isEmpty_cons, Bool.false_eq_true, if_false]
      rw [length_packWords_chunks _ _ (Nat.le_refl _)]
      simp only [wordCount, List.length_cons]
      split <;> omega

theorem unpackWords?_packWords (data : Text) :
    unpackWords? (packWords data) data.length = some data := by
  cases data with
  | nil => simp [packWords, unpackWords?]
  | cons b data =>
      obtain ⟨zeros, hbytes⟩ := packWords_chunks_bytes (b :: data).length (b :: data) (Nat.le_refl _)
      simp only [packWords, List.isEmpty_cons, Bool.false_eq_true, if_false, unpackWords?, hbytes]
      rw [if_neg (by simp), List.take_left']
      rfl

end TickScript
