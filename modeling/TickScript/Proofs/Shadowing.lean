import Mathlib.Data.List.Nodup
import TickScript.Proofs.Name

/-!
# Variables of nested blocks

The variables that a function can see are one list, with a mark where each open block starts. `Blocks`
is the account of the same without marks: one list of variables for each open block. Whatever a
compiler does to the table, it does to the blocks (`Sound.step`), as long as names are identifiers and a
variable is removed before its time only from the block that it was declared in. So the marks never
reach behind the list, a look-up finds the variable of the innermost block that declares the name, and
a block that is left leaves the table that it was entered with.

A variable is named after the number of outer blocks that declare its name as well. This number changes
as blocks are left and variables are removed; that the names of all visible variables still differ is
the invariant `Named`, which removing the last variable of a name does not break (`Named.erase`).

The discipline in `Allows` is what a compiler keeps by the way it uses the table. A variable is
removed early in one place only, behind a loop that declares one, and there it is of the innermost
block. Were a variable of an outer block removed while an inner one is open, the marks would be off
by one.
-/

namespace TickScript

namespace SymbolTable

/-! ## Changes of a table -/

/-- What is done to the variables of a function while it is compiled. -/
inductive Change where
  /-- A block is entered. -/
  | enter
  /-- The innermost block is left. -/
  | leave
  /-- A variable is declared. -/
  | declare (name : Text) (type : VarType)
  /-- A variable is removed. -/
  | remove (name : Text)
deriving DecidableEq, Repr

/-- The table behind a change; none when the change reaches behind the last variable. -/
def change? (t : SymbolTable) : Change → Option SymbolTable
  | .enter => some t.enter
  | .leave => some t.leave.2
  | .declare name type => (t.declare? name type).map (·.2.2)
  | .remove name => some (t.remove name)

/-- The table behind some changes, one after the other. -/
def run? (t : SymbolTable) : List Change → Option SymbolTable
  | [] => some t
  | c :: rest => (t.change? c).bind (run? · rest)

/-- Changes in which every block that is entered is left again, and no other one. -/
inductive Balanced : List Change → Prop
  /-- Nothing happens. -/
  | nil : Balanced []
  /-- A declaration, and what comes behind it. -/
  | declare {name type rest} : Balanced rest → Balanced (.declare name type :: rest)
  /-- A removal, and what comes behind it. -/
  | remove {name rest} : Balanced rest → Balanced (.remove name :: rest)
  /-- A block is entered and left again. -/
  | block {inside rest} : Balanced inside → Balanced rest →
    Balanced (.enter :: (inside ++ .leave :: rest))

/-! ## Blocks -/

/-- Whether a block declares a name. -/
def declares (name : Text) (block : List Symbol) : Bool := block.any (·.name == name)

/-- The variables of a function, block by block. -/
structure Blocks where
  /-- The variables of the innermost block, in order of declaration. -/
  inner : List Symbol := []
  /-- Those of the blocks around it, from the inside out. -/
  outer : List (List Symbol) := []
deriving DecidableEq, Repr

namespace Blocks

/-- All variables, those of the outermost block first. -/
def all (b : Blocks) : List Symbol := b.outer.reverse.flatten ++ b.inner

/-- Where the block inside of some others starts, and where these start. -/
def starts : List (List Symbol) → List Nat
  | [] => []
  | block :: outer => (block :: outer).reverse.flatten.length :: starts outer

/-- The table that shows the blocks of a function. -/
def table (function : Text) (b : Blocks) : SymbolTable := ⟨function, b.all, starts b.outer⟩

/-- A new variable of the innermost block, named after the outer blocks that declare its name. -/
def symbol (function name : Text) (type : VarType) (b : Blocks) : Symbol :=
  let qualified := qualifiedName function name (b.outer.countP (declares name))
  ⟨name, qualified, Name.id qualified, type⟩

/-- The blocks behind a change. -/
def change (function : Text) (b : Blocks) : Change → Blocks
  | .enter => ⟨[], b.inner :: b.outer⟩
  | .leave =>
    match b.outer with
    | [] => b
    | block :: outer => ⟨block, outer⟩
  | .declare name type =>
    if declares name b.inner then b
    else { b with inner := b.inner ++ [b.symbol function name type] }
  | .remove name => { b with inner := b.inner.filter (·.name != name) }

/-- The blocks behind some changes, one after the other. -/
def run (function : Text) (b : Blocks) : List Change → Blocks
  | [] => b
  | c :: rest => run function (b.change function c) rest

/-- What may be done: identifiers are declared, and what is removed is a variable of the innermost
block. -/
def Allows (b : Blocks) : Change → Prop
  | .declare name _ => isIdentifier name = true
  | .remove name => declares name b.inner = true
  | _ => True

/-- Changes each of which may be done when it is its turn. -/
def AllowsAll (function : Text) (b : Blocks) : List Change → Prop
  | [] => True
  | c :: rest => b.Allows c ∧ (b.change function c).AllowsAll function rest

instance decidableAllows (b : Blocks) : (c : Change) → Decidable (b.Allows c)
  | .declare _ _ => inferInstanceAs (Decidable (_ = true))
  | .remove _ => inferInstanceAs (Decidable (_ = true))
  | .enter => inferInstanceAs (Decidable True)
  | .leave => inferInstanceAs (Decidable True)

instance decidableAllowsAll (function : Text) (b : Blocks) :
    (changes : List Change) → Decidable (b.AllowsAll function changes)
  | [] => inferInstanceAs (Decidable True)
  | c :: rest =>
    have := decidableAllowsAll function (b.change function c) rest
    inferInstanceAs (Decidable (b.Allows c ∧ (b.change function c).AllowsAll function rest))

/-- The variable that a name stands for: that of the innermost block which declares it. -/
def find? (b : Blocks) (name : Text) : Option Symbol :=
  (b.inner :: b.outer).findSome? fun block => block.find? (·.name == name)

/-- Variables are named after those that they hide, and no block declares a name twice. -/
structure Sound (function : Text) (b : Blocks) : Prop where
  named : Named function b.all
  once : ∀ block ∈ b.inner :: b.outer, (block.map (·.name)).Nodup

end Blocks

end SymbolTable

/-! ## Lists of variables -/

variable {function name : Text} {Γ Δ block : List Symbol} {symbol : Symbol}

open SymbolTable

/-- A block declares a name if one of its symbols has it. -/
theorem SymbolTable.declares_iff : declares name block = true ↔ name ∈ block.map (·.name) := by
  simp [declares]

theorem SymbolTable.find?_eq_none_of_declares (h : declares name block = false) :
    block.find? (·.name == name) = none := by
  rw [List.find?_eq_none]
  intro s hs hname
  have hdeclares : declares name block = true := List.any_eq_true.2 ⟨s, hs, hname⟩
  rw [h] at hdeclares
  cases hdeclares

/-- A block without doubles has a name at most once. -/
theorem SymbolTable.countP_name (h : (block.map (·.name)).Nodup) :
    block.countP (·.name == name) = if declares name block then 1 else 0 := by
  have hcount : block.countP (·.name == name) = (block.map (·.name)).count name := by
    rw [List.count, List.countP_map]
    rfl
  rw [hcount, h.count]
  simp only [declares_iff]

/-- Where no name stands twice it does not matter from which end a variable is removed. -/
theorem SymbolTable.eraseP_reverse (h : (block.map (·.name)).Nodup) (name : Text) :
    (block.reverse.eraseP (·.name == name)).reverse = block.filter (·.name != name) := by
  induction block using List.reverseRecOn with
  | nil => rfl
  | append_singleton block last ih =>
      rw [List.map_append, List.nodup_append] at h
      obtain ⟨hblock, -, hlast⟩ := h
      rw [List.reverse_append, List.reverse_singleton, List.singleton_append, List.filter_append]
      by_cases hname : last.name = name
      · -- the last variable is the one; no other has its name
        have hothers : block.filter (·.name != name) = block := by
          rw [List.filter_eq_self]
          intro s hs
          have hne := hlast s.name (List.mem_map_of_mem hs) last.name (by simp)
          simpa [hname] using hne
        rw [List.eraseP_cons_of_pos (by simpa using hname), hothers]
        simp [hname]
      · rw [List.eraseP_cons_of_neg (by simpa using hname), List.reverse_cons, ih hblock]
        simp [hname]

namespace Named

/-- The last variable of a name may go: no other one is named after it. -/
theorem erase (h : Named function (Γ ++ symbol :: Δ)) (hlast : ∀ s ∈ Δ, s.name ≠ symbol.name) :
    Named function (Γ ++ Δ) := by
  induction Δ using List.reverseRecOn with
  | nil => simpa using h.dropLast
  | append_singleton Δ last ih =>
      rw [← List.cons_append, ← List.append_assoc] at h
      have hrest := ih h.dropLast fun s hs => hlast s (by simp [hs])
      have hne : symbol.name ≠ last.name := (hlast last (by simp)).symm
      generalize hwhole : Γ ++ symbol :: Δ ++ [last] = whole at h
      cases h with
      | nil => simp at hwhole
      | @snoc Γ' last' _ hname hqualified hid =>
          obtain ⟨rfl, hlast'⟩ := List.append_inj' hwhole rfl
          obtain rfl : last = last' := by simpa using hlast'
          rw [← List.append_assoc]
          refine hrest.snoc hname ?_ hid
          rw [hqualified]
          simp [List.countP_append, hne]

/-- Names without one of them are still the names of a scope. -/
theorem filter (h : Named function (Γ ++ block)) (hblock : (block.map (·.name)).Nodup) :
    Named function (Γ ++ block.filter (·.name != name)) := by
  by_cases hmem : ∃ s ∈ block, s.name = name
  · obtain ⟨s, hs, rfl⟩ := hmem
    obtain ⟨front, back, rfl⟩ := List.append_of_mem hs
    have hnames : ∀ other ∈ front ++ back, other.name ≠ s.name := by
      have hperm : (front ++ s :: back).Perm (s :: (front ++ back)) := List.perm_middle
      have hnodup := (hperm.map (·.name)).nodup_iff.1 hblock
      intro other hother heq
      exact (List.nodup_cons.1 hnodup).1 (List.mem_map.2 ⟨other, hother, heq⟩)
    have hkept : (front ++ s :: back).filter (·.name != s.name) = front ++ back := by
      have hself : (front ++ back).filter (·.name != s.name) = front ++ back :=
        List.filter_eq_self.2 fun other hother => by simpa using hnames other hother
      rw [List.filter_append] at hself ⊢
      simpa using hself
    rw [hkept, ← List.append_assoc]
    have hsplit : Named function ((Γ ++ front) ++ s :: back) := by simpa using h
    exact hsplit.erase fun other hother => hnames other (by simp [hother])
  · have hkept : block.filter (·.name != name) = block :=
      List.filter_eq_self.2 fun s hs => by simpa using fun hname => hmem ⟨s, hs, hname⟩
    rwa [hkept]

/-- Qualified names are different from each other. -/
theorem nodup (h : Named function Γ) : (Γ.map (·.qualified)).Nodup := by
  induction h with
  | nil => exact List.nodup_nil
  | @snoc Γ symbol hΓ hname hqualified _ ih =>
      rw [List.map_append, List.map_singleton]
      refine List.Nodup.append ih (List.nodup_singleton _) ?_
      rw [List.disjoint_singleton]
      intro hmem
      obtain ⟨other, hother, heq⟩ := List.mem_map.1 hmem
      exact hΓ.qualified_ne hother hname (heq.trans hqualified)

/-- No dot stands in the name of a function, so variables of two functions have different names. -/
theorem qualified_ne_foreign {other : Text} (h : Named function Γ) (h' : Named other Δ)
    (hfunction : isIdentifier function = true) (hother : isIdentifier other = true)
    (hne : other ≠ function) {s s' : Symbol} (hs : s ∈ Γ) (hs' : s' ∈ Δ) :
    s.qualified ≠ s'.qualified := by
  obtain ⟨before, -, -, -, hqualified, -⟩ := h.split hs
  obtain ⟨before', -, -, -, hqualified', -⟩ := h'.split hs'
  have htake (f : Text) (hf : isIdentifier f = true) (t : Text) :
      (f ++ 0x2E :: t).takeWhile (· != 0x2E) = f := by
    have hall : ∀ b ∈ f, (b != 0x2E) = true := by
      intro b hb
      simp only [bne_iff_ne, ne_eq]
      rintro rfl
      exact dot_notMem hf hb
    rw [List.takeWhile_append_of_pos hall]
    simp
  intro heq
  rw [hqualified, hqualified', qualifiedName_eq, qualifiedName_eq] at heq
  have hsame := congrArg (List.takeWhile (· != 0x2E)) heq
  rw [htake function hfunction, htake other hother] at hsame
  exact hne hsame.symm

end Named

namespace SymbolTable

namespace Blocks

variable {b : Blocks} {c : Change} {changes : List Change} {type : VarType}

/-! ## What the table of some blocks shows -/

/-- The innermost mark is the number of symbols further out. -/
theorem starts_eq (outer : List (List Symbol)) :
    (starts outer).headD 0 = outer.reverse.flatten.length := by
  cases outer <;> rfl

theorem start_table (function : Text) (b : Blocks) :
    (b.table function).start = b.outer.reverse.flatten.length := starts_eq b.outer

/-- No mark lies beyond the symbols. -/
theorem not_broken (function : Text) (b : Blocks) : (b.table function).isBroken = false := by
  rw [isBroken, start_table]
  simp [table, all]

/-- Behind the mark are the symbols of the innermost block. -/
theorem drop_start (function : Text) (b : Blocks) :
    (b.table function).symbols.drop (b.table function).start = b.inner := by
  rw [start_table]
  exact List.drop_left

theorem take_start (function : Text) (b : Blocks) :
    (b.table function).symbols.take (b.table function).start = b.outer.reverse.flatten := by
  rw [start_table]
  exact List.take_left

theorem le_of_mem_starts {outer : List (List Symbol)} {m : Nat} (h : m ∈ starts outer) :
    m ≤ outer.reverse.flatten.length := by
  induction outer with
  | nil => cases h
  | cons block outer ih =>
      rcases List.mem_cons.1 h with rfl | h
      · exact Nat.le_refl _
      · have := ih h
        simp only [List.reverse_cons, List.flatten_append, List.length_append]
        omega

/-- Marks get smaller from the inside out. -/
theorem starts_descend (outer : List (List Symbol)) : (starts outer).Pairwise (· ≥ ·) := by
  induction outer with
  | nil => exact List.Pairwise.nil
  | cons block outer ih =>
      refine ih.cons fun m hm => ?_
      have := le_of_mem_starts hm
      simp only [List.reverse_cons, List.flatten_append, List.length_append]
      omega

/-- A look-up from the end of the list goes through the blocks from the inside out. -/
theorem find?_table (honce : ∀ block ∈ b.inner :: b.outer, (block.map (·.name)).Nodup) :
    (b.table function).find? name = b.find? name := by
  -- a block declares a name once, so it may be searched from either end
  have hreverse (block : List Symbol) (h : (block.map (·.name)).Nodup) :
      block.reverse.find? (·.name == name) = block.find? (·.name == name) := by
    cases hfind : block.find? (·.name == name) with
    | none => simpa using hfind
    | some s =>
        have hs := List.mem_of_find?_eq_some hfind
        have hname : s.name = name := by simpa using List.find?_some hfind
        obtain ⟨s', hfind'⟩ : ∃ s', block.reverse.find? (·.name == name) = some s' :=
          Option.isSome_iff_exists.1 (by simpa using ⟨s, hs, hname⟩)
        have hs' : s' ∈ block := by simpa using List.mem_of_find?_eq_some hfind'
        have hname' : s'.name = name := by simpa using List.find?_some hfind'
        rw [hfind', List.inj_on_of_nodup_map h hs' hs (hname'.trans hname.symm)]
  -- the blocks further out are searched one after the other, the nearest first
  have houter (outer : List (List Symbol)) (h : ∀ block ∈ outer, (block.map (·.name)).Nodup) :
      outer.reverse.flatten.reverse.find? (·.name == name)
        = outer.findSome? fun block => block.find? (·.name == name) := by
    induction outer with
    | nil => rfl
    | cons block outer ih =>
        simp only [List.reverse_cons, List.flatten_append, List.flatten_cons, List.flatten_nil,
          List.append_nil, List.reverse_append, List.find?_append, List.findSome?_cons,
          hreverse block (h block (by simp)), ih fun block hb => h block (by simp [hb])]
        cases block.find? (·.name == name) <;> rfl
  simp only [SymbolTable.find?, table, all, Blocks.find?, List.reverse_append, List.find?_append,
    List.findSome?_cons, hreverse b.inner (honce _ (by simp)),
    houter b.outer fun block hb => honce block (by simp [hb])]
  cases b.inner.find? (·.name == name) <;> rfl

/-! ## What a change does -/

/-- Entering a block sets a mark at the end of the symbols. -/
theorem enter_table (function : Text) (b : Blocks) :
    (b.table function).enter = (b.change function .enter).table function := by
  simp [enter, table, change, all, starts]

/-- Leaving a block answers its variables and drops them. -/
theorem leave_table (function : Text) {block : List Symbol} {outer : List (List Symbol)}
    (houter : b.outer = block :: outer) :
    (b.table function).leave = (b.inner, (b.change function .leave).table function) := by
  have hdrop := drop_start function b
  have htake := take_start function b
  have hmarks : (b.table function).marks = (b.table function).start :: starts outer := by
    rw [start_table, table, houter]
    rfl
  have hchange : b.change function .leave = ⟨block, outer⟩ := by simp [change, houter]
  simp only [leave, hmarks, hdrop, htake, hchange]
  simp [table, all, houter]

/-- Outer variables with a name are as many as outer blocks that declare it. -/
theorem Sound.countP_outer (h : b.Sound function) (name : Text) :
    b.outer.reverse.flatten.countP (·.name == name) = b.outer.countP (declares name) := by
  have honce : ∀ block ∈ b.outer, (block.map (·.name)).Nodup :=
    fun block hb => h.once block (List.mem_cons_of_mem _ hb)
  generalize b.outer = outer at honce
  induction outer with
  | nil => rfl
  | cons block outer ih =>
      simp only [List.reverse_cons, List.flatten_append, List.flatten_cons, List.flatten_nil,
        List.append_nil, List.countP_append, List.countP_cons,
        ih fun block hb => honce block (List.mem_cons_of_mem _ hb),
        countP_name (honce block List.mem_cons_self)]

/-- A new variable is named after all variables that it hides. -/
theorem Sound.symbol_qualified (h : b.Sound function) (hdeclares : declares name b.inner = false) :
    (b.symbol function name type).qualified
      = qualifiedName function name (b.all.countP (·.name == name)) := by
  have hnone : b.inner.countP (·.name == name) = 0 := by
    rw [countP_name (h.once b.inner List.mem_cons_self), hdeclares]
    rfl
  simp only [symbol, all, List.countP_append, h.countP_outer, hnone, Nat.add_zero]

/-- A declaration answers with the symbol of the block if there is one, and adds a symbol otherwise.
-/
theorem declare_table (hsound : b.Sound function) (name : Text) (type : VarType) :
    (declares name b.inner = true → ∃ s ∈ b.inner, s.name = name
      ∧ (b.table function).declare name type = (s, false, b.table function))
    ∧ (declares name b.inner = false → (b.table function).declare name type
      = (b.symbol function name type, true, (b.change function (.declare name type)).table function)) := by
  constructor
  · intro hdeclares
    obtain ⟨s, hfind⟩ : ∃ s, b.inner.find? (·.name == name) = some s :=
      Option.isSome_iff_exists.1 (by simpa [declares] using hdeclares)
    refine ⟨s, List.mem_of_find?_eq_some hfind, by simpa using List.find?_some hfind, ?_⟩
    rw [declare, drop_start, hfind]
  · intro hdeclares
    have hcount := hsound.countP_outer name
    rw [declare, drop_start, find?_eq_none_of_declares hdeclares]
    simp only [take_start, hcount, change, hdeclares, Bool.false_eq_true, if_false]
    simp [table, all, symbol]

/-- Removing takes the symbol out of the innermost block. -/
theorem remove_table (hsound : b.Sound function) (h : declares name b.inner = true) :
    (b.table function).remove name = (b.change function (.remove name)).table function := by
  obtain ⟨s, hs, hname⟩ := List.any_eq_true.1 h
  have herase := eraseP_reverse (hsound.once b.inner List.mem_cons_self) name
  have hinner : (b.inner.reverse ++ b.outer.reverse.flatten.reverse).eraseP (·.name == name)
      = b.inner.reverse.eraseP (·.name == name) ++ b.outer.reverse.flatten.reverse :=
    List.eraseP_append_left (p := fun s : Symbol => s.name == name) hname _ (by simpa using hs)
  simp only [remove, table, all, change]
  rw [List.reverse_append, hinner, List.reverse_append, List.reverse_reverse, herase]

/-! ## Every change is one of the blocks -/

theorem sound_empty (function : Text) : ({} : Blocks).Sound function := ⟨.nil, by simp⟩

/-- A new block has no symbols of its own. -/
theorem Sound.enter (h : b.Sound function) : (b.change function .enter).Sound function where
  named := by simpa [change, all] using h.named
  once block hb := by
    rcases List.mem_cons.1 hb with rfl | hb
    · exact List.nodup_nil
    · exact h.once block hb

/-- Leaving drops the innermost block, and the names further out are as they were. -/
theorem Sound.leave (h : b.Sound function) : (b.change function .leave).Sound function := by
  obtain ⟨inner, outer⟩ := b
  cases outer with
  | nil => exact h
  | cons block outer =>
      refine ⟨?_, fun other hother => h.once other (List.mem_cons_of_mem _ hother)⟩
      have hnamed : Named function (all ⟨block, outer⟩ ++ inner) := by
        simpa [all] using h.named
      exact hnamed.left

/-- A new symbol is marked with the number of those that it hides. -/
theorem Sound.declare (h : b.Sound function) (hname : isIdentifier name = true) :
    (b.change function (.declare name type)).Sound function := by
  by_cases hdeclares : declares name b.inner = true
  · rwa [change, if_pos hdeclares]
  · rw [change, if_neg hdeclares]
    constructor
    · rw [all, ← List.append_assoc]
      exact h.named.snoc hname (h.symbol_qualified (by simpa using hdeclares)) rfl
    · intro block hb
      rcases List.mem_cons.1 hb with rfl | hb
      · rw [List.map_append, List.map_singleton]
        refine List.Nodup.append (h.once b.inner (by simp)) (List.nodup_singleton _) ?_
        rw [List.disjoint_singleton, ← declares_iff]
        exact hdeclares
      · exact h.once block (List.mem_cons_of_mem _ hb)

theorem Sound.remove (h : b.Sound function) : (b.change function (.remove name)).Sound function where
  named := h.named.filter (h.once b.inner (by simp))
  once block hb := by
    rcases List.mem_cons.1 hb with rfl | hb
    · exact (h.once b.inner (by simp)).sublist (List.filter_sublist.map _)
    · exact h.once block (List.mem_cons_of_mem _ hb)

/-- A change of the table is one of the blocks. -/
theorem Sound.step (h : b.Sound function) (hallows : b.Allows c) :
    (b.table function).change? c = some ((b.change function c).table function)
      ∧ (b.change function c).Sound function := by
  cases c with
  | enter => exact ⟨congrArg some (enter_table function b), h.enter⟩
  | leave =>
      refine ⟨congrArg some ?_, h.leave⟩
      cases houter : b.outer with
      | nil => simp [SymbolTable.leave, change, table, houter, starts]
      | cons block outer => rw [leave_table function houter]
  | declare name type =>
      refine ⟨?_, h.declare hallows⟩
      obtain ⟨hrefused, hnew⟩ := declare_table h name type
      rw [change?, declare?, not_broken, if_neg Bool.false_ne_true]
      cases hdeclares : declares name b.inner with
      | true =>
          obtain ⟨s, -, -, hdeclare⟩ := hrefused hdeclares
          rw [hdeclare, change, if_pos hdeclares]
          rfl
      | false =>
          rw [hnew hdeclares]
          rfl
  | remove name => exact ⟨congrArg some (remove_table h hallows), h.remove⟩

/-- A disciplined sequence of changes does to the table what it does to the blocks, by induction on
the changes. -/
theorem Sound.run (h : b.Sound function) (hallows : b.AllowsAll function changes) :
    (b.table function).run? changes = some ((b.run function changes).table function)
      ∧ (b.run function changes).Sound function := by
  induction changes generalizing b with
  | nil => exact ⟨rfl, h⟩
  | cons c rest ih =>
      obtain ⟨hchange, hsound⟩ := h.step hallows.1
      rw [run?, hchange]
      exact ih hsound hallows.2

/-! ## Blocks that are left again -/

/-- Changes are made one after the other. -/
theorem run_append (function : Text) (b : Blocks) (changes rest : List Change) :
    b.run function (changes ++ rest) = (b.run function changes).run function rest := by
  induction changes generalizing b with
  | nil => rfl
  | cons c changes ih => exact ih (b.change function c)

theorem allowsAll_append {rest : List Change} :
    b.AllowsAll function (changes ++ rest)
      ↔ b.AllowsAll function changes ∧ (b.run function changes).AllowsAll function rest := by
  induction changes generalizing b with
  | nil => simp [AllowsAll, Blocks.run]
  | cons c changes ih => simp [AllowsAll, Blocks.run, ih, and_assoc]

/-- A block that is entered and left leaves the blocks around it alone. -/
theorem leave_run_enter (function : Text) (b : Blocks) {inside : List Change}
    (h : ∀ b : Blocks, (b.run function inside).outer = b.outer) :
    ((b.change function .enter).run function inside).change function .leave = b := by
  have houter : ((b.change function .enter).run function inside).outer = b.inner :: b.outer := h _
  generalize (b.change function .enter).run function inside = left at houter
  rw [change, houter]

/-- Balanced changes leave the blocks further out alone. -/
theorem outer_run_of_balanced (h : Balanced changes) (b : Blocks) :
    (b.run function changes).outer = b.outer := by
  induction h generalizing b with
  | nil => rfl
  | declare _ ih =>
      rw [Blocks.run, ih, change]
      split <;> rfl
  | remove _ ih => exact ih _
  | block _ _ hinside ih =>
      rw [Blocks.run, run_append, Blocks.run, leave_run_enter function b hinside, ih]

end Blocks

/-! ## The whole table -/

/-- What a table says about the blocks of a function. -/
structure Shows (t : SymbolTable) (b : Blocks) : Prop where
  /-- The marks do not decrease from the outside in and none lies behind the last variable. -/
  marks : t.marks.Pairwise (· ≥ ·) ∧ ∀ m ∈ t.marks, m ≤ t.symbols.length
  /-- No two visible variables have one qualified name. -/
  distinct : (t.symbols.map (·.qualified)).Nodup
  /-- No visible variable has the qualified name of a variable of the unit. -/
  notGlobal : ∀ s ∈ t.symbols, ∀ name, isIdentifier name = true → s.qualified ≠ name
  /-- A name stands for the variable of the innermost block that declares it. -/
  lookup : ∀ name, t.find? name = b.find? name
  /-- A declaration fails exactly for a name that the innermost block has already. -/
  declare : ∀ name type, ∃ s fresh t', t.declare? name type = some (s, fresh, t')
    ∧ (fresh = false ↔ declares name b.inner = true) ∧ s.name = name
    ∧ (if fresh then t'.symbols = t.symbols ++ [s] else s ∈ b.inner ∧ t' = t)
  /-- Leaving the innermost open block answers its variables in order and removes just them. Without
  an open block nothing happens. -/
  leave : if t.marks = [] then t.leave = ([], t)
    else t.leave.1 = b.inner ∧ t.symbols = t.leave.2.symbols ++ b.inner

theorem Blocks.Sound.shows {b : Blocks} (h : b.Sound function) : (b.table function).Shows b where
  marks := by
    refine ⟨starts_descend b.outer, fun m hm => ?_⟩
    have hle := le_of_mem_starts hm
    simp only [table, all, List.length_append]
    omega
  distinct := h.named.nodup
  notGlobal s hs _ hname := h.named.qualified_ne_identifier hs hname
  lookup name := find?_table h.once
  declare name type := by
    obtain ⟨hrefused, hnew⟩ := declare_table h name type
    rw [declare?, not_broken, if_neg Bool.false_ne_true]
    cases hdeclares : declares name b.inner with
    | true =>
        obtain ⟨s, hs, hname, hdeclare⟩ := hrefused hdeclares
        exact ⟨s, false, _, congrArg some hdeclare, by simp, hname, hs, rfl⟩
    | false =>
        refine ⟨_, true, _, congrArg some (hnew hdeclares), by simp, rfl, ?_⟩
        simp [table, all, change, hdeclares]
  leave := by
    cases houter : b.outer with
    | nil => simp [table, houter, starts, SymbolTable.leave]
    | cons block outer =>
        have hmarks : (b.table function).marks ≠ [] := by simp [table, houter, starts]
        rw [if_neg hmarks, leave_table function houter]
        simp [table, all, change, houter]

/-- Shadowed variables are kept apart. Let blocks of a function be entered and left, identifiers be
declared in them, and variables be removed early from the block that declares them, in any order. None
of this reaches outside of the table, and the table shows the blocks. Visible variables of another
function have other qualified names. When the last change leaves a block, the table is again the one
that the block was entered with. -/
theorem locals_kept_apart {function : Text} (hfunction : isIdentifier function = true)
    {changes : List Change} (hallowed : ({} : Blocks).AllowsAll function changes) :
    ∃ t, run? ⟨function, [], []⟩ changes = some t
      ∧ t.Shows (({} : Blocks).run function changes)
      ∧ (∀ other changes' t', isIdentifier other = true → other ≠ function →
        ({} : Blocks).AllowsAll other changes' → run? ⟨other, [], []⟩ changes' = some t' →
        ∀ s ∈ t.symbols, ∀ s' ∈ t'.symbols, s.qualified ≠ s'.qualified)
      ∧ ∀ before inside, changes = before ++ .enter :: (inside ++ [.leave]) → Balanced inside →
        run? ⟨function, [], []⟩ before = some t := by
  obtain ⟨hrun, hsound⟩ := (Blocks.sound_empty function).run hallowed
  refine ⟨_, hrun, hsound.shows, ?_, ?_⟩
  · intro other changes' t' hother hne hallowed' hrun' s hs s' hs'
    obtain ⟨hrun'', hsound'⟩ := (Blocks.sound_empty other).run hallowed'
    obtain rfl : _ = t' := Option.some.inj (hrun''.symm.trans hrun')
    exact hsound.named.qualified_ne_foreign hsound'.named hfunction hother hne hs hs'
  · rintro before inside rfl hinside
    obtain ⟨hbefore, -⟩ := Blocks.allowsAll_append.1 hallowed
    have hback : ({} : Blocks).run function (before ++ .enter :: (inside ++ [.leave]))
        = ({} : Blocks).run function before := by
      rw [Blocks.run_append, Blocks.run, Blocks.run_append]
      exact Blocks.leave_run_enter function _ (Blocks.outer_run_of_balanced hinside)
    rw [hback]
    exact ((Blocks.sound_empty function).run hbefore).1

/-- A variable that is hidden twice, once for a short time. -/
def hidingTwice : List Change :=
  [.declare "x" .int, .enter, .declare "x" .int, .enter, .declare "x" .bool, .declare "y" .int,
    .remove "x"]

theorem hidingTwice_kept_apart :
    ({} : Blocks).AllowsAll "f" hidingTwice
    ∧ ∃ t, run? ⟨"f", [], []⟩ hidingTwice = some t
      ∧ t.symbols.map (·.qualified) = [Text.ofString "f.x", "f.x$2", "f.y"] ∧ t.marks = [2, 1]
      ∧ (t.symbols.map (·.qualified)).Nodup := by
  have hallowed : ({} : Blocks).AllowsAll "f" hidingTwice := by decide
  obtain ⟨t, hrun, hshows, -, -⟩ := locals_kept_apart (by decide) hallowed
  have hnames : (run? ⟨"f", [], []⟩ hidingTwice).map (fun t => (t.symbols.map (·.qualified), t.marks))
      = some ([Text.ofString "f.x", "f.x$2", "f.y"], [2, 1]) := by
    decide
  rw [hrun] at hnames
  obtain ⟨hqualified, hmarks⟩ := Prod.mk.inj (Option.some.inj hnames)
  exact ⟨hallowed, t, hrun, hqualified, hmarks, hshows.distinct⟩

end SymbolTable

end TickScript
