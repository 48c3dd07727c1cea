import TickScript.Proofs.Codegen.Layout

/-!
# Where the parts of a branch and of a loop stand

The layouts of branches and loops put several pieces and the jumps between them in a row. Placed at
an offset, each part stands at an offset of its own, and the distances of the jumps are the
differences of these offsets.

Both lemmas take the layout apart once. Whoever follows the machine through a branch or a loop, or
looks for a statement inside of one, uses the fields of `BranchPlaces` and `LoopPlaces` and does no
sums of sizes.
-/

namespace TickScript.Gen

theorem size_jumpBy (distance : Int) : (jumpInstr .jumpBy distance).size = 3 := rfl

theorem size_jumpIfBy (distance : Int) : (jumpInstr .jumpIfBy distance).size = 3 := rfl

/-- The parts of a branch: a test that jumps to the body from `start` on, or else to the tail from
`rest` on. -/
structure BranchPlaces (bytes : Text) (offset : Nat) (test body tail : Code) (start rest : Nat) :
    Prop where
  /-- The flag that arms the test. -/
  flag : Placed bytes offset [.plain .setFlag]
  /-- The test. -/
  condition : Placed bytes (offset + 1) test
  /-- The jump to the body if the test holds. -/
  enter : Placed bytes (offset + 1 + Instr.sizeAll test) [jumpInstr .jumpIfBy relativeJumpSize]
  /-- The jump over the body if it does not. -/
  skip : Placed bytes (offset + 1 + Instr.sizeAll test + 3) [jumpInstr .jumpBy (skipSize body tail)]
  /-- The body. -/
  inner : Placed bytes start body
  /-- Behind the body the jump over the tail, if there is one. -/
  exit : tail.isEmpty = false →
    Placed bytes (start + Instr.sizeAll body) [jumpInstr .jumpBy (Instr.sizeAll tail)]
  /-- The tail. -/
  otherwise : Placed bytes rest tail
  /-- The body stands behind the test and the two jumps. -/
  start_eq : start = offset + 1 + Instr.sizeAll test + 3 + 3
  /-- The tail stands behind the body and its jump. -/
  rest_eq : rest = start + skipSize body tail
  /-- The layout ends where the tail does. -/
  size : offset + Instr.sizeAll (branchLayout test body tail) = rest + Instr.sizeAll tail

theorem branchPlaces {bytes : Text} {offset : Nat} {test body tail : Code}
    (h : Placed bytes offset (branchLayout test body tail)) :
    ∃ start rest, BranchPlaces bytes offset test body tail start rest := by
  have hflag : (Instr.plain .setFlag).size = 1 := rfl
  have hexit : Instr.sizeAll (if tail.isEmpty then [] else [jumpInstr .jumpBy (Instr.sizeAll tail)])
      + Instr.sizeAll body = skipSize body tail := by
    rw [skipSize, Nat.add_comm]
    split <;> rfl
  have hsize : Instr.sizeAll (branchLayout test body tail)
      = 1 + Instr.sizeAll test + 3 + 3 + skipSize body tail + Instr.sizeAll tail := by
    simp only [branchLayout, Instr.sizeAll_append, Instr.sizeAll, size_jumpBy, size_jumpIfBy, hflag]
    omega
  refine ⟨offset + 1 + Instr.sizeAll test + 3 + 3,
    offset + 1 + Instr.sizeAll test + 3 + 3 + skipSize body tail, ?_⟩
  unfold branchLayout at h
  have htail := h.right
  have hfront := h.left
  -- each part stands behind the sizes of those before it
  have hjump := hfront.right
  have hbody := hfront.left.right
  have hskip := hfront.left.left.right
  have henter := hfront.left.left.left.right
  have htest := hfront.left.left.left.left
  simp only [Instr.sizeAll_append, Instr.sizeAll, size_jumpBy, size_jumpIfBy, hflag]
    at htail hjump hbody hskip henter
  refine ⟨htest.head, htest.tail, ?_, ?_, ?_, fun hempty => ?_, ?_, rfl, rfl, by omega⟩
  · convert henter using 1
    omega
  · convert hskip using 1
    omega
  · convert hbody using 1
    omega
  · rw [if_neg (by simp [hempty])] at hjump
    convert hjump using 1
    omega
  · convert htail using 1
    omega

/-- The parts of a loop: the body from `start` on, and behind it the test at `again`. -/
structure LoopPlaces (bytes : Text) (offset : Nat) (kind : LoopKind) (inner test : Code)
    (start again : Nat) : Prop where
  /-- The compare value is saved in front. -/
  save : Placed bytes offset [.plain .saveCompare]
  /-- A loop that tests first jumps to its test. -/
  forward : kind ≠ .doWhile → Placed bytes (offset + 1) [jumpInstr .jumpBy (Instr.sizeAll inner)]
  /-- The body and the step. -/
  inside : Placed bytes start inner
  /-- The flag that arms the test. -/
  flag : Placed bytes again [.plain .setFlag]
  /-- The test. -/
  condition : Placed bytes (again + 1) test
  /-- The jump back to the body if the test holds. -/
  back : Placed bytes (again + 1 + Instr.sizeAll test)
    [jumpInstr .jumpIfBy (backDistance inner test)]
  /-- The compare value is restored behind the loop. -/
  restore : Placed bytes (again + 1 + Instr.sizeAll test + 3) [.plain .restoreCompare]
  /-- The body stands behind the save, and behind the jump to the test if there is one. -/
  start_eq : start = offset + 1 + (if kind = .doWhile then 0 else 3)
  /-- The test stands behind the body. -/
  again_eq : again = start + Instr.sizeAll inner
  /-- The layout ends behind the restored compare value. -/
  size : offset + Instr.sizeAll (loopLayout kind inner test) = again + 1 + Instr.sizeAll test + 3 + 1

theorem loopPlaces {bytes : Text} {offset : Nat} {kind : LoopKind} {inner test : Code}
    (h : Placed bytes offset (loopLayout kind inner test)) :
    ∃ start again, LoopPlaces bytes offset kind inner test start again := by
  have hsave : (Instr.plain .saveCompare).size = 1 := rfl
  have hflag : (Instr.plain .setFlag).size = 1 := rfl
  have hrestore : (Instr.plain .restoreCompare).size = 1 := rfl
  have hforward : Instr.sizeAll (if kind = .doWhile then []
      else [jumpInstr .jumpBy (Instr.sizeAll inner)]) = if kind = .doWhile then 0 else 3 := by
    split <;> rfl
  refine ⟨offset + 1 + (if kind = .doWhile then 0 else 3),
    offset + 1 + (if kind = .doWhile then 0 else 3) + Instr.sizeAll inner, ?_⟩
  -- the size of the whole is the sum of the sizes of its seven parts
  have hsize : Instr.sizeAll (loopLayout kind inner test)
      = 1 + (if kind = .doWhile then 0 else 3) + Instr.sizeAll inner + 1 + Instr.sizeAll test + 3
        + 1 := by
    simp only [loopLayout, Instr.sizeAll_append, Instr.sizeAll, size_jumpIfBy, hflag, hsave,
      hrestore, hforward]
    omega
  unfold loopLayout at h
  -- the parts, from the last one to the first
  have hrestored := h.right
  have hback := h.left.right.right
  have htest := h.left.right.left
  have hinner := h.left.left.right
  have hjump := h.left.left.left.tail
  have hfirst := h.left.left.left.head
  have hagain := htest.head
  have hcondition := htest.tail
  -- their places are sums of sizes, put into the form of the statement below
  simp only [Instr.sizeAll_append, Instr.sizeAll, size_jumpIfBy, hflag, hsave, hforward]
    at hrestored hback hinner hjump hagain hcondition
  refine ⟨hfirst, fun hkind => ?_, ?_, ?_, ?_, ?_, ?_, rfl, rfl, by omega⟩
  · rw [if_neg hkind] at hjump
    exact hjump
  · convert hinner using 1
    omega
  · convert hagain using 1
    omega
  · convert hcondition using 1
    omega
  · convert hback using 1
    omega
  · convert hrestored using 1
    omega

end TickScript.Gen
