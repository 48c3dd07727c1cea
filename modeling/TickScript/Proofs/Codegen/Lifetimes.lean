import Mathlib.Data.Set.Insert
import TickScript.Proofs.Codegen.WellFormed
import TickScript.Proofs.Machine.Act

/-!
# Which variables are alive in code

Only two instructions make or drop a local variable, so the variables that are alive at an instruction
can be written beside it. `Annotated` code carries such sets; it flows when every instruction leads
from its own set to that of the instruction behind it and every jump leads to an instruction that has
the set of the jump. `Lifetimes before behind places code` says that code can be annotated in this way,
from the variables alive before it to those alive behind it, with the given sets at the given places.

Bodies are generated on their own and put together later, so lifetimes are put together like code: one
piece behind another, a branch in front of its tail, a loop around its body. Code that ends in a return
is never left at its end, and any variables may be alive behind it.

Annotations are chosen backwards: the set at the entry of a piece may depend on what stands behind
it, since an empty piece has no instruction to carry a set (`entry`). That is the one subtlety in
putting pieces together, and `LivesAt` is stated so that the end of a piece counts as a place.

`Lifetimes` also keeps a list of places. A statement of a body is found again in the code of the
whole function by following its place through every construction: `Lifetimes.append` moves the
places of the second part, `Lifetimes.branch` and `Lifetimes.loop` move those of the bodies, and
`Proofs.Codegen.Scopes` reads the places of the finished function off the same rules.
-/

namespace TickScript

/-! ## Single instructions -/

/-- The variables alive behind an instruction, given those alive before it. -/
def Instr.survivors (i : Instr) (alive : Set Id) : Set Id :=
  if i.op = .allocate then insert (i.word 2) alive
  else if i.op = .free then alive \ {i.word 0}
  else alive

/-- Whether the instruction behind an operation may come next. -/
def Opcode.goesOn : Opcode → Bool
  | .ret | .jump | .jumpBy | .kill => false
  | _ => true

/-- Whether an operation neither jumps nor returns, and makes and drops no variable. -/
def Opcode.isQuiet (op : Opcode) : Bool :=
  !(op.isJump || op == .ret || op == .allocate || op == .free)

/-- A quiet instruction is no jump, so what is alive behind it is decided by it alone. -/
theorem Opcode.not_jump_of_isQuiet {op : Opcode} (h : op.isQuiet = true) : op.isJump = false := by
  simp only [isQuiet, Bool.not_eq_true', Bool.or_eq_false_iff] at h
  exact h.1.1.1

theorem Opcode.goesOn_of_isQuiet {op : Opcode} (h : op.isQuiet = true) (hkill : op ≠ .kill) :
    op.goesOn = true := by
  cases op
  case ret | jump | jumpBy => cases h
  case kill => exact absurd rfl hkill
  all_goals rfl

/-- A quiet instruction neither makes nor drops a variable. -/
theorem Instr.survivors_of_isQuiet {i : Instr} (h : i.op.isQuiet = true) (alive : Set Id) :
    i.survivors alive = alive := by
  simp only [Opcode.isQuiet, Bool.not_eq_true', Bool.or_eq_false_iff, beq_eq_false_iff_ne] at h
  rw [survivors, if_neg h.1.2, if_neg h.2]

namespace Gen

/-- The variables alive behind code without jumps. -/
def survivors (code : Code) (alive : Set Id) : Set Id :=
  code.foldl (fun alive i => i.survivors alive) alive

/-- What survives two pieces of code survives them one after the other. -/
theorem survivors_append (a b : Code) (alive : Set Id) :
    survivors (a ++ b) alive = survivors b (survivors a alive) :=
  List.foldl_append

/-- The freeing code at the end of a block drops the variables of the block and no other. -/
theorem survivors_freeCode (freed : List Id) (alive : Set Id) :
    survivors (freeCode freed) alive = alive \ {id | id ∈ freed} := by
  induction freed generalizing alive with
  | nil =>
      ext other
      simp [survivors, freeCode]
  | cons id freed ih =>
      have hfirst : survivors (freeCode (id :: freed)) alive
          = survivors (freeCode freed) (alive \ {id}) := rfl
      rw [hfirst, ih]
      ext other
      simp only [Set.mem_sdiff, Set.mem_singleton_iff, Set.mem_ofPred_eq, List.mem_cons, not_or,
        and_assoc]

/-! ## Annotated code -/

/-- Code with the variables alive before each instruction. -/
abbrev Annotated := List (Set Id × Instr)

namespace Annotated

/-- The instructions alone. -/
def code (A : Annotated) : Code := A.map (·.2)

@[simp] theorem code_nil : code [] = [] := rfl

@[simp] theorem code_cons (alive : Set Id) (i : Instr) (A : Annotated) :
    code ((alive, i) :: A) = i :: code A := rfl

@[simp] theorem code_append (A B : Annotated) : code (A ++ B) = code A ++ code B := List.map_append

/-- The variables alive at the start of code, given those alive behind it. -/
def entry (behind : Set Id) : Annotated → Set Id
  | [] => behind
  | (alive, _) :: _ => alive

@[simp] theorem entry_nil (behind : Set Id) : entry behind [] = behind := rfl

@[simp] theorem entry_cons (behind alive : Set Id) (i : Instr) (A : Annotated) :
    entry behind ((alive, i) :: A) = alive := rfl

/-- The sets at the entry of a piece that may be empty come from what stands behind it. -/
theorem entry_append (behind : Set Id) (A B : Annotated) :
    entry behind (A ++ B) = entry (entry behind B) A := by
  cases A with
  | nil => rfl
  | cons first A => rfl

/-- The instruction at an offset, or the end of the code, has some variables alive, and some code
starts there. -/
def LivesAt (A : Annotated) (behind : Set Id) (offset : Int) (alive : Set Id) (here : Code) : Prop :=
  ∃ before after, A = before ++ after ∧ (Instr.sizeAll before.code : Int) = offset
    ∧ entry behind after = alive ∧ here <+: after.code

/-- The instruction takes at least the byte of its opcode. -/
theorem size_pos (i : Instr) : 0 < i.size := by
  rw [Instr.size]
  omega

/-- Every instruction takes room, so code without bytes is no code. -/
theorem eq_nil_of_sizeAll {code : Code} (h : Instr.sizeAll code = 0) : code = [] := by
  cases code with
  | nil => rfl
  | cons i rest =>
      have hpos := size_pos i
      rw [Instr.sizeAll] at h
      omega

/-- Two parts of code that have one size in front are the same part. -/
theorem append_cancel_of_size {before after before' after' : Annotated}
    (h : before ++ after = before' ++ after')
    (hsize : Instr.sizeAll before.code = Instr.sizeAll before'.code) : after = after' := by
  rcases List.append_eq_append_iff.mp h with ⟨between, rfl, rfl⟩ | ⟨between, rfl, rfl⟩
  all_goals
    have hbetween : code between = [] := eq_nil_of_sizeAll (by
      simp only [code_append, Instr.sizeAll_append] at hsize
      omega)
    obtain rfl : between = [] := List.map_eq_nil_iff.mp hbetween
    rfl

/-- At one offset one set of variables is alive. -/
theorem LivesAt.unique {A : Annotated} {behind alive alive' : Set Id} {offset : Int}
    {here here' : Code} (h : LivesAt A behind offset alive here)
    (h' : LivesAt A behind offset alive' here') : alive = alive' := by
  obtain ⟨before, after, hA, rfl, rfl, -⟩ := h
  obtain ⟨before', after', hA', hsize, rfl, -⟩ := h'
  rw [append_cancel_of_size (hA.symm.trans hA') (by omega)]

/-- A place keeps its set when code is put before and behind it, offsets moved along. -/
theorem LivesAt.within {A : Annotated} {behind alive : Set Id} {offset : Int} {here : Code}
    (before after : Annotated) (h : LivesAt A (entry behind after) offset alive here) :
    LivesAt (before ++ A ++ after) behind (Instr.sizeAll before.code + offset) alive here := by
  obtain ⟨first, rest, rfl, rfl, rfl, hhere⟩ := h
  refine ⟨before ++ first, rest ++ after, by simp, ?_, entry_append .., ?_⟩
  · rw [code_append, Instr.sizeAll_append]
    push_cast
    rfl
  · rw [code_append]
    exact hhere.trans (List.prefix_append ..)

/-! ## Flow -/

/-- Every instruction leads to the set of the one behind it, and every jump, which is a relative one,
to a place where `P` holds with the set of the jump. The code starts at an offset. -/
def Flow (P : Int → Set Id → Prop) (behind : Set Id) : Nat → Annotated → Prop
  | _, [] => True
  | offset, (alive, i) :: rest =>
    ((i.op.goesOn = true → entry behind rest = i.survivors alive)
      ∧ (i.op.isJump = true → i.op.isRelative = true ∧ P (i.target offset) alive))
    ∧ Flow P behind (offset + i.size) rest

/-- Code whose jumps lead to its own instructions or to its end. -/
def Flows (A : Annotated) (behind : Set Id) : Prop :=
  Flow (fun offset alive => LivesAt A behind offset alive []) behind 0 A

variable {P Q : Int → Set Id → Prop} {behind : Set Id} {offset : Nat} {A B : Annotated}

/-- Code flows in two parts: the first part leads into the entry of the second. -/
theorem flow_append : Flow P behind offset (A ++ B)
    ↔ Flow P (entry behind B) offset A ∧ Flow P behind (offset + Instr.sizeAll A.code) B := by
  induction A generalizing offset with
  | nil => simp [Flow, Instr.sizeAll]
  | cons first A ih =>
      obtain ⟨alive, i⟩ := first
      simp only [List.cons_append, Flow, entry_append, ih, code_cons, Instr.sizeAll, and_assoc,
        Nat.add_assoc]

/-- Code that is moved takes its jumps along. -/
theorem Flow.shift (h : Flow P behind offset A) (distance : Nat)
    (hPQ : ∀ target alive, P target alive → Q (target + distance) alive) :
    Flow Q behind (offset + distance) A := by
  induction A generalizing offset with
  | nil => trivial
  | cons first A ih =>
      obtain ⟨alive, i⟩ := first
      obtain ⟨⟨hon, hjump⟩, hrest⟩ := h
      refine ⟨⟨hon, ?_⟩, ?_⟩
      · intro hop
        obtain ⟨hrel, htarget⟩ := hjump hop
        have hmoved : i.target (offset + distance) = i.target offset + distance := by
          simp only [Instr.target, hrel, if_true]
          push_cast
          omega
        refine ⟨hrel, ?_⟩
        rw [hmoved]
        exact hPQ _ _ htarget
      · rw [Nat.add_right_comm]
        exact ih hrest

/-- Code that flows as a part of other code. -/
theorem Flows.within {whole : Annotated} (before after : Annotated)
    (h : Flows A (entry behind after)) (hwhole : whole = before ++ A ++ after)
    (hoffset : offset = Instr.sizeAll before.code) :
    Flow (fun target alive => LivesAt whole behind target alive []) (entry behind after) offset A := by
  subst hwhole hoffset
  have hshift := h.shift (Instr.sizeAll before.code)
    (Q := fun target alive => LivesAt (before ++ A ++ after) behind target alive []) ?_
  · simpa using hshift
  · intro target alive hlives
    rw [Int.add_comm]
    exact hlives.within before after

/-- Behind an instruction that goes on, the variables that it leaves are alive. -/
theorem Flows.next {before rest : Annotated} {alive : Set Id} {i : Instr} (h : Flows A behind)
    (hA : A = before ++ (alive, i) :: rest) (hon : i.op.goesOn = true) :
    LivesAt A behind (Instr.sizeAll before.code + i.size) (i.survivors alive) [] := by
  have hflow := h
  rw [Flows, hA] at hflow
  refine ⟨before ++ [(alive, i)], rest, by simp [hA], ?_, ?_, List.nil_prefix⟩
  · simp [Instr.sizeAll]
  · exact (flow_append.mp hflow).2.1.1 hon

/-- A jump is a relative one and leads to where the same variables are alive. -/
theorem Flows.jump {before rest : Annotated} {alive : Set Id} {i : Instr} (h : Flows A behind)
    (hA : A = before ++ (alive, i) :: rest) (hop : i.op.isJump = true) : i.op.isRelative = true
      ∧ LivesAt A behind (i.target (Instr.sizeAll before.code)) alive [] := by
  have hflow := h
  rw [Flows, hA] at hflow
  rw [hA]
  simpa using (flow_append.mp hflow).2.1.2 hop

/-! ## Level code

Code is level if what is alive behind it is alive at its start. -/

/-- The same variables are alive at the start of the code and behind it. -/
def Level (alive : Set Id) (A : Annotated) : Prop := entry alive A = alive

variable {alive : Set Id}

theorem level_nil : Level alive [] := rfl

theorem level_single (i : Instr) : Level alive [(alive, i)] := rfl

/-- Level code stays level: the same variables are alive all along. -/
theorem Level.append (hA : Level alive A) (hB : Level alive B) : Level alive (A ++ B) := by
  rw [Level, entry_append, hB, hA]

/-- Two level parts with the same set flow one into the other. -/
theorem Flow.append (hA : Flow P alive offset A)
    (hB : Flow P alive (offset + Instr.sizeAll A.code) B) (hlevel : Level alive B) :
    Flow P alive offset (A ++ B) := by
  apply flow_append.mpr
  rw [hlevel]
  exact ⟨hA, hB⟩

/-- Code that flows in front of level code. -/
theorem Flows.part {whole : Annotated} (h : Flows A alive) (before : Annotated) {after : Annotated}
    (hafter : Level alive after) (hwhole : whole = before ++ A ++ after)
    (hoffset : offset = Instr.sizeAll before.code) :
    Flow (fun target now => LivesAt whole alive target now []) alive offset A := by
  have hA : Flows A (entry alive after) := by rwa [hafter]
  have hpart := hA.within before after hwhole hoffset
  rwa [hafter] at hpart

/-- A place in front of level code. -/
theorem LivesAt.part {whole : Annotated} {inside : Int} {now : Set Id} {here : Code}
    (h : LivesAt A alive inside now here) (before : Annotated) {after : Annotated}
    (hafter : Level alive after) (hwhole : whole = before ++ A ++ after) {target : Int}
    (htarget : target = Instr.sizeAll before.code + inside) : LivesAt whole alive target now here := by
  subst hwhole htarget
  rw [← hafter] at h
  exact h.within before after

/-- A jump to level code. -/
theorem flow_jumpInstr {whole : Annotated} {op : Opcode} {distance : Int}
    (hop : op = .jumpBy ∨ op = .jumpIfBy) (hdistance : Reachable distance) (front : Annotated)
    {rest : Annotated} (hlevel : Level alive rest) (hwhole : whole = front ++ rest)
    (htarget : (Instr.sizeAll front.code : Int) = offset + 3 + distance) :
    Flow (fun target now => LivesAt whole alive target now []) alive offset
      [(alive, jumpInstr op distance)] := by
  have hword : (Int64.ofInt distance).toInt = distance :=
    Int64.toInt_ofInt_of_le (by have := hdistance.1; omega) (by have := hdistance.2; omega)
  have hrel : (jumpInstr op distance).op.isRelative = true := by rcases hop with rfl | rfl <;> rfl
  have hleads : (jumpInstr op distance).target offset = offset + 3 + distance := by
    have hsize : (jumpInstr op distance).size = 3 := by rcases hop with rfl | rfl <;> rfl
    have hfirst : (jumpInstr op distance).operands.head?.getD 0 = Int64.ofInt distance := rfl
    rw [Instr.target, if_pos hrel, hfirst, hword, hsize]
    rfl
  refine ⟨⟨?_, ?_⟩, trivial⟩
  · -- a jump makes and drops no variable
    intro _
    rcases hop with rfl | rfl <;> rfl
  · intro _
    exact ⟨hrel, front, rest, hwhole, by rw [htarget, hleads], hlevel, List.nil_prefix⟩

/-! ## Code without jumps -/

/-- Code with the variables that its instructions leave, starting with some. -/
def trace (alive : Set Id) : Code → Annotated
  | [] => []
  | i :: rest => (alive, i) :: trace (i.survivors alive) rest

@[simp] theorem code_trace (alive : Set Id) (code : Code) :
    Annotated.code (trace alive code) = code := by
  induction code generalizing alive with
  | nil => rfl
  | cons i rest ih => rw [trace, code_cons, ih]

/-- Code without jumps carries the sets that its instructions produce one after another. -/
theorem flow_trace {alive : Set Id} {code : Code} (hplain : ∀ i ∈ code, i.op.isJump = false)
    (hend : survivors code alive = behind) : Flow P behind offset (trace alive code) := by
  induction code generalizing alive offset with
  | nil => trivial
  | cons i rest ih =>
      refine ⟨⟨?_, ?_⟩, ih (fun j hj => hplain j (by simp [hj])) hend⟩
      · intro _
        cases rest with
        | nil => exact hend.symm
        | cons j rest => rfl
      · intro hop
        rw [hplain i (by simp)] at hop
        cases hop

/-- A single quiet instruction leads from its set to the same set. -/
theorem flow_quiet {alive : Set Id} {i : Instr} (h : i.op.isQuiet = true) :
    Flow P alive offset [(alive, i)] := by
  have hplain : ∀ j ∈ [i], j.op.isJump = false := by
    intro j hj
    obtain rfl := List.mem_singleton.mp hj
    exact Opcode.not_jump_of_isQuiet h
  exact flow_trace hplain (Instr.survivors_of_isQuiet h alive)

/-- A return may have anything alive behind it. -/
theorem flow_ret {alive : Set Id} : Flow P behind offset [(alive, .plain .ret)] := by
  refine ⟨⟨?_, ?_⟩, trivial⟩
  · rintro ⟨⟩
  · rintro ⟨⟩

end Annotated

open Annotated

/-! ## Lifetimes of a piece -/

/-- Code can be annotated with the variables that are alive: those at its start, those where control
leaves it at its end, and those at some places, each with the code that starts there. -/
def Lifetimes (before behind : Set Id) (places : Nat → Set Id → Code → Prop) (code : Code) : Prop :=
  ∃ A : Annotated, A.code = code ∧ entry behind A = before ∧ Flows A behind
    ∧ ∀ offset alive here, places offset alive here → LivesAt A behind offset alive here

/-- No place. -/
def nowhere (_ : Nat) (_ : Set Id) (_ : Code) : Prop := False

/-- The places of a piece that stands at a distance. -/
def movedBy (distance : Nat) (places : Nat → Set Id → Code → Prop) (offset : Nat) (alive : Set Id)
    (here : Code) : Prop :=
  ∃ inside, offset = distance + inside ∧ places inside alive here

/-- The places of two pieces. -/
def either (places places' : Nat → Set Id → Code → Prop) (offset : Nat) (alive : Set Id)
    (here : Code) : Prop :=
  places offset alive here ∨ places' offset alive here

section

variable {before between behind alive : Set Id} {places places' : Nat → Set Id → Code → Prop}
  {a b code : Code}

/-- Fewer places may be claimed. -/
theorem Lifetimes.mono (h : Lifetimes before behind places code)
    (hless : ∀ offset alive here, places' offset alive here → places offset alive here) :
    Lifetimes before behind places' code := by
  obtain ⟨A, hcode, hentry, hflow, hplaces⟩ := h
  exact ⟨A, hcode, hentry, hflow, fun _ _ _ hplace => hplaces _ _ _ (hless _ _ _ hplace)⟩

/-- The start of a piece is a place. -/
theorem Lifetimes.start (h : Lifetimes before behind places code) :
    Lifetimes before behind (either places fun offset alive here =>
      offset = 0 ∧ alive = before ∧ here = code) code := by
  obtain ⟨A, rfl, rfl, hflow, hplaces⟩ := h
  refine ⟨A, rfl, rfl, hflow, ?_⟩
  rintro offset alive here (hplace | ⟨rfl, rfl, rfl⟩)
  · exact hplaces _ _ _ hplace
  · exact ⟨[], A, rfl, rfl, rfl, List.prefix_refl _⟩

/-- Behind code whose size is known the places of the second part move by that size. -/
theorem Lifetimes.append (ha : Lifetimes before between places a)
    (hb : Lifetimes between behind places' b) :
    Lifetimes before behind (either places (movedBy (Instr.sizeAll a) places')) (a ++ b) := by
  obtain ⟨A, rfl, rfl, hflowA, hplacesA⟩ := ha
  obtain ⟨B, rfl, rfl, hflowB, hplacesB⟩ := hb
  refine ⟨A ++ B, code_append A B, entry_append behind A B, ?_, ?_⟩
  · apply flow_append.mpr
    constructor
    · exact hflowA.within [] B rfl rfl
    · exact hflowB.within A [] (List.append_nil _).symm (Nat.zero_add _)
  · rintro offset alive here (hplace | ⟨inside, rfl, hplace⟩)
    · simpa [Instr.sizeAll] using (hplacesA _ _ _ hplace).within [] B
    · simpa using (hplacesB _ _ _ hplace).within A []

/-- Code without jumps. -/
theorem lifetimes_of_plain (hplain : ∀ i ∈ code, i.op.isJump = false)
    (hend : survivors code before = behind) : Lifetimes before behind nowhere code := by
  refine ⟨trace before code, code_trace before code, ?_, flow_trace hplain hend, ?_⟩
  · cases code with
    | nil => exact hend.symm
    | cons i rest => rfl
  · intro _ _ _ hnowhere
    cases hnowhere

/-- Code without jumps that ends in a return. -/
theorem lifetimes_of_return (hplain : ∀ i ∈ code, i.op.isJump = false) :
    Lifetimes before behind nowhere (code ++ [.plain .ret]) := by
  have hret : Lifetimes (survivors code before) behind nowhere [.plain .ret] := by
    refine ⟨[(_, .plain .ret)], rfl, rfl, flow_ret, ?_⟩
    intro _ _ _ hnowhere
    cases hnowhere
  apply ((lifetimes_of_plain hplain rfl).append hret).mono
  rintro _ _ _ ⟨⟩

/-- Code in which no variable is made or dropped. -/
def Quiet (code : Code) : Prop := ∀ i ∈ code, i.op.isQuiet = true

theorem Quiet.plain (h : Quiet code) : ∀ i ∈ code, i.op.isJump = false :=
  fun i hi => Opcode.not_jump_of_isQuiet (h i hi)

/-- Quiet code drops and makes nothing. -/
theorem Quiet.survivors_eq (h : Quiet code) : survivors code alive = alive := by
  induction code generalizing alive with
  | nil => rfl
  | cons i rest ih =>
      have hfirst : survivors (i :: rest) alive = survivors rest (i.survivors alive) := rfl
      rw [hfirst, Instr.survivors_of_isQuiet (h i (by simp)), ih fun j hj => h j (by simp [hj])]

/-- Quiet code has the same variables alive from its beginning to its end. -/
theorem Quiet.lifetimes (h : Quiet code) : Lifetimes alive alive nowhere code :=
  lifetimes_of_plain h.plain h.survivors_eq

/-- Freeing variables jumps nowhere. -/
theorem plain_freeCode (freed : List Id) : ∀ i ∈ freeCode freed, i.op.isJump = false := by
  intro i hi
  obtain ⟨id, -, rfl⟩ := List.mem_map.mp hi
  rfl

/-- Behind the code that frees a block the variables of the block are gone. -/
theorem lifetimes_freeCode (freed : List Id) (alive : Set Id) :
    Lifetimes alive (alive \ {id | id ∈ freed}) nowhere (freeCode freed) :=
  lifetimes_of_plain (plain_freeCode freed) (survivors_freeCode freed alive)

/-! ## Branches and loops -/

/-- Where the body of a branch stands: behind the flag, the test and two jumps. -/
def bodyOffset (test : Code) : Nat := 1 + Instr.sizeAll test + 3 + 3

/-- A branch leaves alive what is alive in front of it, if its parts do. -/
theorem Lifetimes.branch {test body tail : Code} (htest : Lifetimes alive alive nowhere test)
    (hbody : Lifetimes alive alive places body) (htail : Lifetimes alive alive places' tail)
    (hfits : BranchFits body tail) :
    Lifetimes alive alive (either (movedBy (bodyOffset test) places)
      (movedBy (bodyOffset test + skipSize body tail) places')) (branchLayout test body tail) := by
  obtain ⟨T, rfl, hT, hflowT, -⟩ := htest
  obtain ⟨B, rfl, hB, hflowB, hplacesB⟩ := hbody
  obtain ⟨C, rfl, hC, hflowC, hplacesC⟩ := htail
  have hjump (distance : Int) : Instr.sizeAll [jumpInstr .jumpBy distance] = 3 := rfl
  have hjumpIf (distance : Int) : Instr.sizeAll [jumpInstr .jumpIfBy distance] = 3 := rfl
  have hflag : Instr.sizeAll [.plain .setFlag] = 1 := rfl
  -- the jump over the tail, if there is a tail
  obtain ⟨exit, hexit⟩ : ∃ exit : Annotated, exit = if C.code.isEmpty then []
      else [(alive, jumpInstr .jumpBy (Instr.sizeAll C.code))] := ⟨_, rfl⟩
  have hexitCode : exit.code = if C.code.isEmpty then []
      else [jumpInstr .jumpBy (Instr.sizeAll C.code)] := by
    rw [hexit]
    split <;> rfl
  have hexitLevel : Level alive exit := by
    rw [hexit]
    split <;> rfl
  have hskip : skipSize B.code C.code = Instr.sizeAll B.code + Instr.sizeAll exit.code := by
    rw [skipSize, hexitCode]
    split <;> rfl
  let flag : Annotated := [(alive, .plain .setFlag)]
  let enter : Annotated := [(alive, jumpInstr .jumpIfBy relativeJumpSize)]
  let skip : Annotated := [(alive, jumpInstr .jumpBy (skipSize B.code C.code))]
  let front : Annotated := flag ++ T ++ enter ++ skip
  -- everything before the body: flag, test and the two jumps behind it
  have hfront : Instr.sizeAll front.code = bodyOffset T.code := by
    simp only [front, flag, enter, skip, code_append, code_cons, code_nil, Instr.sizeAll_append,
      hflag, hjump, hjumpIf, bodyOffset]
  have htail : Level alive (exit ++ C) := hexitLevel.append hC
  have hrest : Level alive (B ++ (exit ++ C)) := Level.append hB htail
  -- the parts are put together in the order of the layout; a part with a jump is checked inside the
  -- whole, since its target lies in a later part
  refine ⟨front ++ B ++ exit ++ C, ?_, rfl, ?_, ?_⟩
  · simp [front, flag, enter, skip, hexitCode, branchLayout]
  · refine Flow.append (Flow.append (Flow.append (Flow.append (Flow.append (Flow.append
      ?_ ?_ hT) ?_ (level_single _)) ?_ (level_single _)) ?_ hB) ?_ hexitLevel) ?_ hC
    · exact flow_quiet rfl
    · have hjumps : Level alive (enter ++ (skip ++ (B ++ (exit ++ C)))) :=
        (level_single _).append ((level_single _).append hrest)
      exact hflowT.part flag hjumps (by simp [front]) (by simp [flag])
    · -- the test succeeded: over the second jump into the body
      refine flow_jumpInstr (.inr rfl) ⟨by decide, by decide⟩ front hrest (by simp) ?_
      simp only [front, flag, enter, skip, code_append, code_cons, code_nil, Instr.sizeAll_append,
        hflag, hjump, hjumpIf, relativeJumpSize]
      push_cast
      omega
    · -- the test failed: over the body to the tail
      refine flow_jumpInstr (.inl rfl) hfits.skip (front ++ B ++ exit) hC (by simp) ?_
      simp only [front, flag, enter, skip, code_append, code_cons, code_nil, Instr.sizeAll_append,
        hflag, hjump, hjumpIf, hskip]
      push_cast
      omega
    · exact hflowB.part front htail (by simp) (by simp [front])
    · subst hexit
      -- without a tail there is nothing to jump over
      cases hempty : C.code.isEmpty with
      | true => trivial
      | false =>
          simp only [Bool.false_eq_true, if_false]
          refine flow_jumpInstr (.inl rfl) (hfits.exit hempty) _ level_nil (List.append_nil _).symm ?_
          simp only [front, flag, enter, skip, code_append, code_cons, code_nil,
            Instr.sizeAll_append, hflag, hjump, hjumpIf]
          push_cast
          omega
    · exact hflowC.part (front ++ B ++ exit) level_nil (by simp) (by simp [front])
  · -- places inside the body and inside the tail keep their sets, moved
    rintro offset now here (⟨inside, rfl, hplace⟩ | ⟨inside, rfl, hplace⟩)
    · refine (hplacesB _ _ _ hplace).part front htail (by simp) ?_
      rw [hfront]
      push_cast
      rfl
    · refine (hplacesC _ _ _ hplace).part (front ++ B ++ exit) level_nil (by simp) ?_
      rw [code_append, code_append, Instr.sizeAll_append, Instr.sizeAll_append, hfront, hskip]
      push_cast
      omega

/-- Where the body of a loop stands: behind the saved compare value and the jump to the test. -/
def loopOffset (kind : LoopKind) : Nat := 1 + if kind = .doWhile then 0 else 3

/-- A loop leaves alive what is alive in front of it, if its parts do. -/
theorem Lifetimes.loop {kind : LoopKind} {inner test : Code}
    (hinner : Lifetimes alive alive places inner) (htest : Lifetimes alive alive nowhere test)
    (hfits : LoopFits kind inner test) :
    Lifetimes alive alive (movedBy (loopOffset kind) places) (loopLayout kind inner test) := by
  obtain ⟨B, rfl, hB, hflowB, hplacesB⟩ := hinner
  obtain ⟨T, rfl, hT, hflowT, -⟩ := htest
  have hjump (distance : Int) : Instr.sizeAll [jumpInstr .jumpBy distance] = 3 := rfl
  have hjumpIf (distance : Int) : Instr.sizeAll [jumpInstr .jumpIfBy distance] = 3 := rfl
  have hflag : Instr.sizeAll [.plain .setFlag] = 1 := rfl
  have hsave : Instr.sizeAll [.plain .saveCompare] = 1 := rfl
  -- the jump to the test, unless the loop enters at its body
  obtain ⟨forward, hforward⟩ : ∃ forward : Annotated, forward = if kind = .doWhile then []
      else [(alive, jumpInstr .jumpBy (Instr.sizeAll B.code))] := ⟨_, rfl⟩
  have hforwardCode : forward.code = if kind = .doWhile then []
      else [jumpInstr .jumpBy (Instr.sizeAll B.code)] := by
    rw [hforward]
    split <;> rfl
  have hforwardLevel : Level alive forward := by
    rw [hforward]
    split <;> rfl
  let save : Annotated := [(alive, .plain .saveCompare)]
  let flag : Annotated := [(alive, .plain .setFlag)]
  let back : Annotated := [(alive, jumpInstr .jumpIfBy (backDistance B.code T.code))]
  let restore : Annotated := [(alive, .plain .restoreCompare)]
  -- what stands behind each jump target, level with the rest
  have hend : Level alive (back ++ restore) := (level_single _).append (level_single _)
  have hagain : Level alive (flag ++ (T ++ (back ++ restore))) :=
    (level_single _).append (Level.append hT hend)
  have hfront : Instr.sizeAll (save ++ forward).code = loopOffset kind := by
    rw [code_append, Instr.sizeAll_append, hforwardCode, loopOffset]
    split <;> rfl
  -- in the order of the layout; the jump at the end goes back into the body
  refine ⟨save ++ forward ++ B ++ flag ++ T ++ back ++ restore, ?_, rfl, ?_, ?_⟩
  · simp [save, flag, back, restore, hforwardCode, loopLayout]
  · refine Flow.append (Flow.append (Flow.append (Flow.append (Flow.append (Flow.append
      ?_ ?_ hforwardLevel) ?_ hB) ?_ (level_single _)) ?_ hT) ?_ (level_single _)) ?_ (level_single _)
    · exact flow_quiet rfl
    · -- a loop that tests last enters at its body, with no jump to the test
      by_cases hkind : kind = .doWhile
      · obtain rfl : forward = [] := by rw [hforward, if_pos hkind]
        trivial
      · obtain rfl : forward = [(alive, jumpInstr .jumpBy (Instr.sizeAll B.code))] := by
          rw [hforward, if_neg hkind]
        refine flow_jumpInstr (.inl rfl) (hfits.forward hkind)
          (save ++ [(alive, jumpInstr .jumpBy (Instr.sizeAll B.code))] ++ B) hagain (by simp) ?_
        simp only [save, code_append, code_cons, code_nil, Instr.sizeAll_append, hjump, hsave]
        push_cast
        omega
    · exact hflowB.part (save ++ forward) hagain (by simp) (by simp)
    · exact flow_quiet rfl
    · exact hflowT.part (save ++ forward ++ B ++ flag) hend (by simp) (by simp)
    · refine flow_jumpInstr (.inr rfl) hfits.back (save ++ forward) (Level.append hB hagain)
        (by simp) ?_
      simp only [flag, code_append, code_cons, code_nil, Instr.sizeAll_append, hflag, backDistance,
        relativeJumpSize]
      push_cast
      omega
    · exact flow_quiet rfl
  · -- only the body has places of its own
    rintro offset now here ⟨inside, rfl, hplace⟩
    refine (hplacesB _ _ _ hplace).part (save ++ forward) hagain (by simp) ?_
    rw [hfront]
    push_cast
    rfl

end

/-! ## Expressions -/

theorem quiet_nil : Quiet [] := by simp [Quiet]

theorem quiet_cons {i : Instr} {code : Code} :
    Quiet (i :: code) ↔ i.op.isQuiet = true ∧ Quiet code := List.forall_mem_cons

theorem quiet_single {i : Instr} (h : i.op.isQuiet = true) : Quiet [i] := quiet_cons.mpr ⟨h, quiet_nil⟩

theorem quiet_append {a b : Code} : Quiet (a ++ b) ↔ Quiet a ∧ Quiet b := List.forall_mem_append

theorem quiet_literalCode (v : Value) : Quiet (literalCode v) := by
  intro i hi
  simp only [literalCode, Instr.literal, List.mem_append, List.mem_map, List.mem_cons,
    List.not_mem_nil, or_false] at hi
  rcases hi with ⟨word, -, rfl⟩ | rfl | rfl
  · rfl
  · rfl
  · rfl

theorem quiet_compareZero (relation : Relation) : Quiet (compareZero relation) :=
  quiet_append.mpr ⟨quiet_literalCode _, quiet_single rfl⟩

theorem quiet_fromValue {want : Want} {code : Code} (h : Quiet code) :
    Quiet (fromValue want code) := by
  cases want with
  | value => exact h
  | truth => exact quiet_append.mpr ⟨h, quiet_compareZero _⟩
  | effect => exact quiet_append.mpr ⟨h, quiet_single rfl⟩

theorem quiet_fromTruth {want : Want} {code : Code} (h : Quiet code) :
    Quiet (fromTruth want code) := by
  cases want with
  | value => exact quiet_append.mpr ⟨h, quiet_single rfl⟩
  | truth => exact h
  | effect => exact quiet_append.mpr ⟨h, quiet_cons.mpr ⟨rfl, quiet_single rfl⟩⟩

/-- Arithmetic only moves values on the stack. -/
theorem isQuiet_of_arithmetic {kind : TokenKind} {op : Opcode} (h : kind.arithmetic? = some op) :
    op.isQuiet = true := by
  cases kind <;> first | cases h; rfl | cases h

/-- So does the arithmetic of an assigning operator. -/
theorem isQuiet_of_compound {kind : TokenKind} {op : Opcode} (h : kind.compound? = some op) :
    op.isQuiet = true := by
  cases kind <;> first | cases h; rfl | cases h

/-- The operations on objects make no variables. -/
theorem isQuiet_of_objectOperation {kind : TokenKind} {op : Opcode}
    (h : kind.objectOperation? = some op) : op.isQuiet = true := by
  cases kind <;> first | cases h; rfl | cases h

theorem quiet_stepLayout (operator : Token) (id : Id) (after : Bool) (want : Want) :
    Quiet (stepLayout operator id after want) := by
  have hload : Quiet [.withWord .pushVar id] := quiet_single rfl
  have hop : Quiet [.plain (if operator.kind = .decrement then .sub else .add)] := by
    split <;> exact quiet_single rfl
  have hchange := quiet_append.mpr ⟨quiet_append.mpr ⟨hload, quiet_literalCode (.ofInt 1)⟩,
    quiet_append.mpr ⟨hop, quiet_single (i := .withWord .popVar id) rfl⟩⟩
  simp only [stepLayout]
  split
  · exact hchange
  · split
    · exact quiet_fromValue (quiet_append.mpr ⟨hload, hchange⟩)
    · exact quiet_fromValue (quiet_append.mpr ⟨hchange, hload⟩)

theorem quiet_assignLayout {id : Id} {want : Want} {code : Code} (h : Quiet code) :
    Quiet (assignLayout id want code) := by
  simp only [assignLayout]
  split
  · exact quiet_append.mpr ⟨h, quiet_single rfl⟩
  · exact quiet_fromValue (quiet_append.mpr ⟨h, quiet_cons.mpr ⟨rfl, quiet_single rfl⟩⟩)

/-- Expressions neither jump nor make or drop a variable. -/
theorem quiet_exprCode {u : Tables} {Γ : List Symbol} {piece : ExprPiece} {code : Code}
    (h : ExprCode u Γ piece code) : Quiet code := by
  -- an expression makes and drops no variable, whatever shape its code has
  induction h with
  | ident | null | attached => exact quiet_fromValue (quiet_single rfl)
  | number | string | true_ | false_ | minusNumber => exact quiet_fromValue (quiet_literalCode _)
  | minus _ _ _ ih =>
      exact quiet_fromValue (quiet_append.mpr
        ⟨quiet_append.mpr ⟨quiet_literalCode _, ih⟩, quiet_single rfl⟩)
  | tilde _ _ ih =>
      exact quiet_fromValue (quiet_append.mpr
        ⟨quiet_append.mpr ⟨ih, quiet_literalCode _⟩, quiet_single rfl⟩)
  | bang _ _ ih => exact quiet_fromTruth (quiet_append.mpr ⟨ih, quiet_compareZero _⟩)
  | plus _ _ _ _ ih => exact quiet_fromValue ih
  | step => exact quiet_stepLayout _ _ _ _
  | relation _ _ _ ihleft ihright =>
      exact quiet_fromTruth (quiet_append.mpr
        ⟨quiet_append.mpr ⟨ihleft, ihright⟩, quiet_single rfl⟩)
  | connective _ _ _ _ ihleft ihright =>
      exact quiet_fromTruth (quiet_append.mpr ⟨quiet_append.mpr
        ⟨quiet_append.mpr ⟨ihleft, quiet_single rfl⟩, ihright⟩, quiet_single rfl⟩)
  | arithmetic _ _ hop _ _ ihleft ihright =>
      exact quiet_fromValue (quiet_append.mpr
        ⟨quiet_append.mpr ⟨ihleft, ihright⟩, quiet_single (isQuiet_of_arithmetic hop)⟩)
  | assign _ _ _ ih => exact quiet_assignLayout ih
  | compound hop _ _ ih =>
      exact quiet_assignLayout (quiet_append.mpr
        ⟨quiet_cons.mpr ⟨rfl, ih⟩, quiet_single (isQuiet_of_compound hop)⟩)
  | object hop _ ih =>
      exact quiet_fromValue (quiet_append.mpr
        ⟨ih, quiet_single (isQuiet_of_objectOperation hop)⟩)
  | call _ _ _ _ _ ih => exact quiet_fromValue (quiet_append.mpr ⟨ih, quiet_single rfl⟩)
  | nil => exact quiet_nil
  | cons _ _ ihfirst ihmore => exact quiet_append.mpr ⟨ihfirst, ihmore⟩

end Gen

end TickScript
