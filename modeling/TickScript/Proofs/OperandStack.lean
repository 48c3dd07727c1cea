import Mathlib.Data.List.Induction
import TickScript.Machine.OperandStack
import TickScript.Proofs.Word

/-!
# Values on the operand stack

What is pushed comes back: a value of a known type is popped as it was pushed, unless it has more
data than the stack gives back, and then nothing is popped at all. Several values pushed in a row
are popped together in the same order.

The limit on the size of data applies to what is read back, not to what is pushed, so a push always
succeeds and a pop may not. `Stackable` is what is needed to find the extent of a value at all, and
`Poppable` adds the limit.
-/

namespace TickScript

/-- A value that the stack tells apart from every other: its type has a tag and its size fits the
size word. -/
structure Value.Stackable (v : Value) : Prop where
  known : v.type.isKnown = true
  sized : v.data.length < 2 ^ 64

/-- A value that can be popped again. -/
structure Value.Poppable (v : Value) : Prop where
  known : v.type.isKnown = true
  small : v.data.length ≤ OperandStack.maxValueSize

theorem Value.Poppable.stackable {v : Value} (h : v.Poppable) : v.Stackable :=
  ⟨h.known, Nat.lt_of_le_of_lt h.small (by decide)⟩

namespace OperandStack

/-- A value lies on the stack as its tag, its length and the words of its data, the tag on top. -/
theorem push_eq (v : Value) (s : OperandStack) :
    push v s = UInt64.ofNat v.type.tag.toNat :: UInt64.ofNat v.data.length
      :: ((packWords v.data).reverse ++ s) := by
  simp [push, words]

/-- The top of the stack after a push: the value, when its size is within the limit. -/
theorem pop?_push {v : Value} (h : v.Stackable) (s : OperandStack) :
    pop? (push v s) = if v.data.length ≤ maxValueSize then some (v, s) else none := by
  have htag : v.type.tag.toNat ≤ 6 := by
    have hle : v.type.tag ≤ 6 := by simpa [VarType.isKnown] using h.known
    simpa [UInt8.le_iff_toNat_le] using hle
  have hword : (UInt64.ofNat v.type.tag.toNat).toNat = v.type.tag.toNat :=
    UInt64.toNat_ofNat_of_lt' (Nat.lt_of_le_of_lt htag (by decide))
  have hsize : (UInt64.ofNat v.data.length).toNat = v.data.length :=
    UInt64.toNat_ofNat_of_lt' h.sized
  have htype : ¬ (VarType.uint.tag.toUInt64 < UInt64.ofNat v.type.tag.toNat) := by
    rw [UInt64.lt_iff_toNat_lt, hword]
    simpa [VarType.uint] using htag
  have hback : (UInt64.ofNat v.type.tag.toNat).toUInt8 = v.type.tag := by
    apply UInt8.toNat_inj.mp
    rw [UInt64.toNat_toUInt8, hword]
    omega
  have hcount : (wordCount v.data.length).toNat = ((packWords v.data).reverse).length := by
    rw [List.length_reverse, length_packWords]
  rw [push_eq]
  simp only [pop?, htype, hsize, decide_false, Bool.false_or, decide_eq_true_eq]
  by_cases hsmall : v.data.length ≤ maxValueSize
  · rw [if_neg (by omega), if_pos hsmall, hcount, List.take_left, List.drop_left,
      if_neg (by omega), List.reverse_reverse, unpackWords?_packWords, hback]
    rfl
  · rw [if_pos (by omega), if_neg hsmall]

/-- What was pushed is popped again, with nothing else touched. -/
theorem pop?_push_poppable {v : Value} (h : v.Poppable) (s : OperandStack) :
    pop? (push v s) = some (v, s) := by
  rw [pop?_push h.stackable, if_pos h.small]

/-- Data beyond the limit are not given back. -/
theorem pop?_push_large {v : Value} (h : v.Stackable) (hlarge : maxValueSize < v.data.length)
    (s : OperandStack) : pop? (push v s) = none := by
  rw [pop?_push h, if_neg (by omega)]

/-- Several values pushed in a row, the first one first. -/
def pushAll (vs : List Value) (s : OperandStack) : OperandStack :=
  vs.foldl (fun s v => push v s) s

@[simp] theorem pushAll_nil (s : OperandStack) : pushAll [] s = s := rfl

@[simp] theorem pushAll_cons (v : Value) (vs : List Value) (s : OperandStack) :
    pushAll (v :: vs) s = pushAll vs (push v s) := rfl

/-- Values are pushed one after the other. -/
theorem pushAll_append (vs ws : List Value) (s : OperandStack) :
    pushAll (vs ++ ws) s = pushAll ws (pushAll vs s) := by
  simp [pushAll, List.foldl_append]

/-- The last one is on top. -/
theorem pushAll_concat (vs : List Value) (v : Value) (s : OperandStack) :
    pushAll (vs ++ [v]) s = push v (pushAll vs s) := by
  simp [pushAll_append]

/-- Values pushed in a row are popped together, in the order in which they were pushed. -/
theorem popMany?_pushAll (vs : List Value) (s : OperandStack) (h : ∀ v ∈ vs, v.Poppable) :
    popMany? vs.length (pushAll vs s) = some (vs, s) := by
  induction vs using List.reverseRecOn with
  | nil => rfl
  | append_singleton vs v ih =>
      have hv : v.Poppable := h v (by simp)
      have hvs := ih fun w hw => h w (by simp [hw])
      rw [pushAll_concat, List.length_append, List.length_singleton]
      simp [popMany?, pop?_push_poppable hv, hvs]

/-- As many values as are asked for, popped one by one, and the stack below them. -/
def popEach? : (count : Nat) → OperandStack → Option (List Value × OperandStack)
  | 0, s => some ([], s)
  | count + 1, s => do
    let (v, s) ← pop? s
    let (below, s) ← popEach? count s
    return (v :: below, s)

/-- Values popped one by one are those popped together, the topmost first. -/
theorem popEach?_eq (count : Nat) (s : OperandStack) :
    popEach? count s = (popMany? count s).map fun taken => (taken.1.reverse, taken.2) := by
  induction count generalizing s with
  | zero => rfl
  | succ count ih =>
      cases htop : pop? s with
      | none => simp [popEach?, popMany?, htop]
      | some top =>
          obtain ⟨v, s⟩ := top
          cases hbelow : popMany? count s with
          | none => simp [popEach?, popMany?, htop, ih, hbelow]
          | some taken => simp [popEach?, popMany?, htop, ih, hbelow]

end OperandStack

end TickScript
