import TickScript.Proofs.Codegen.Layout
import TickScript.Proofs.Simulation

/-!
# Stores and machines

When a machine agrees with a store. The globals of the machine, read by their names, are those of the
store; a local variable of the store is a local of the innermost call under the id that the name
stands for at that place. Reading and writing a variable keep the two in agreement, whatever is
shadowed.

A store has named variables, a machine has ids. `Holding` ties one symbol of the scope to one
variable of the store, and `Bound` does so for all that can be seen, from the innermost outwards, so
that looking up a name in the store and looking up its id in the call find the same value. The call
may have other locals, those of blocks that were left; `holding_congr` says that they do not matter.

`At` is the condition that all triples about code use. Its lemmas say what the simplest instructions
do to it, in terms of offset, operands and variables, so that nothing further on has to look at the
fields of a machine.
-/

namespace TickScript

/-- The globals of a machine by name. -/
def Machine.contents (names : List Text) (m : Machine) : Table Text Value :=
  names.filterMap fun name => (m.global? name).map fun v => (name, v)

namespace Machine

/-- Reading the globals out by name gives what the machine holds under the names. -/
theorem get?_contents {names : List Text} {name : Text} (m : Machine) (h : name ∈ names) :
    (m.contents names).get? name = m.global? name := by
  induction names with
  | nil => cases h
  | cons first names ih =>
      by_cases heq : first = name
      · subst heq
        cases hget : m.global? first with
        | some v => simp [contents, hget, Table.get?]
        -- a name without a variable has no entry, here or further back
        | none =>
            by_cases hmem : first ∈ names
            · have hrest := ih hmem
              simpa [contents, hget] using hrest
            · -- entries further back belong to other names
              have hnone : ∀ entry ∈ m.contents names, entry.1 ≠ first := by
                intro entry hentry
                obtain ⟨other, hother, hmap⟩ := List.mem_filterMap.mp hentry
                obtain ⟨v, -, rfl⟩ := Option.map_eq_some_iff.mp hmap
                rintro rfl
                exact hmem hother
              have hfind : (m.contents names).find? (fun entry => entry.1 = first) = none :=
                List.find?_eq_none.mpr fun entry hentry => by simpa using hnone entry hentry
              have hdrop : m.contents (first :: names) = m.contents names := by
                simp [contents, hget]
              rw [hdrop]
              simp [Table.get?, hfind]
      · have hmem : name ∈ names := (List.mem_cons.mp h).resolve_left fun h => heq h.symm
        have hrest := ih hmem
        cases hget : m.global? first with
        | none => simpa [contents, hget] using hrest
        | some v => simpa [contents, hget, Table.get?, heq] using hrest

/-- Writing a global changes its entry and no other. -/
theorem contents_set {names : List Text} {name : Text} (m : Machine) (v : Value)
    (hdistinct : (names.map Name.id).Nodup) (h : name ∈ names)
    (hpresent : ∃ old, m.global? name = some old) :
    contents names { m with globals := m.globals.set (Name.id name) v }
      = (m.contents names).set name v := by
  obtain ⟨old, hold⟩ := hpresent
  have hglobal (other : Text) :
      global? { m with globals := m.globals.set (Name.id name) v } other
        = if Name.id other = Name.id name then some v else m.global? other :=
    Table.get?_set _ _ _ _
  induction names with
  | nil => cases h
  | cons first names ih =>
      rw [List.map_cons, List.nodup_cons] at hdistinct
      by_cases heq : first = name
      · subst heq
        -- the entries further back have other ids, so they stay
        have hrest : contents names { m with globals := m.globals.set (Name.id first) v }
            = m.contents names := by
          refine List.filterMap_congr fun other hother => ?_
          have hne : Name.id other ≠ Name.id first := fun hid =>
            hdistinct.1 (hid ▸ List.mem_map_of_mem hother)
          rw [hglobal, if_neg hne]
        have hcons : contents (first :: names) { m with globals := m.globals.set (Name.id first) v }
            = (first, v) :: contents names { m with globals := m.globals.set (Name.id first) v } := by
          simp [contents, hglobal]
        rw [hcons, hrest]
        simp [contents, hold, Table.set]
      · have hmem : name ∈ names := (List.mem_cons.mp h).resolve_left fun h => heq h.symm
        have hne : Name.id first ≠ Name.id name := fun hid =>
          hdistinct.1 (hid ▸ List.mem_map_of_mem hmem)
        have hrest := ih hdistinct.2 hmem
        -- an entry in front belongs to another id and stays as well
        have hfirst : global? { m with globals := m.globals.set (Name.id name) v } first
            = m.global? first := by
          rw [hglobal, if_neg hne]
        cases hget : m.global? first with
        | none => simpa [contents, hget, hfirst] using hrest
        | some other =>
            simpa [contents, hget, hfirst, Table.set, heq] using hrest

end Machine

namespace Gen

/-! ## Local variables -/

/-- How the locals of a store and those of a call belong together. -/
abbrev LocalsRel := List (Text × Value) → Table Id Value → Prop

/-- A symbol and the variable of the store that it stands for. -/
structure Holding (locals : Table Id Value) (symbol : Symbol) (entry : Text × Value) : Prop where
  /-- The entry of the environment has the name of the symbol. -/
  name : entry.1 = symbol.name
  /-- The variable of the machine holds its value. -/
  value : locals.get? symbol.id = some entry.2
  /-- The value has a type that the machine knows. -/
  known : entry.2.type.isKnown = true

/-- The machine may change locals that the store does not know of. -/
theorem holding_congr {Δ : List Symbol} {env : List (Text × Value)} {locals locals' : Table Id Value}
    (h : List.Forall₂ (Holding locals) Δ env)
    (hsame : ∀ id ∈ ids Δ, locals'.get? id = locals.get? id) :
    List.Forall₂ (Holding locals') Δ env := by
  induction h with
  | nil => exact .nil
  | @cons symbol entry Δ env hfirst _ ih =>
      refine .cons ⟨hfirst.name, ?_, hfirst.known⟩ (ih fun id hid => hsame id (by simp [hid]))
      rw [hsame symbol.id (by simp), hfirst.value]

/-- The locals of a call are those that can be seen. -/
structure Bound (Γ : List Symbol) (env : List (Text × Value)) (locals : Table Id Value) : Prop where
  /-- No two symbols in scope share a variable. -/
  distinct : (ids Γ).Nodup
  /-- Every symbol is found with its value, the innermost one first. -/
  found : List.Forall₂ (Holding locals) Γ.reverse env
  /-- The call has no other variables. -/
  absent : ∀ id, id ∉ ids Γ → locals.get? id = none

/-- A scope without variables binds nothing. -/
theorem Bound.nil : Bound [] [] [] := ⟨.nil, .nil, fun _ _ => rfl⟩

variable {Γ : List Symbol} {env : List (Text × Value)} {locals : Table Id Value}

/-- The innermost variable of a name, in the store and in the call. -/
theorem Bound.get? {name : Text} {symbol : Symbol} (h : Bound Γ env locals)
    (hfind : Γ.reverse.find? (·.name == name) = some symbol) :
    ∃ v, Table.get? env name = some v ∧ locals.get? symbol.id = some v
      ∧ v.type.isKnown = true := by
  obtain ⟨-, hall, -⟩ := h
  generalize Γ.reverse = Δ at hall hfind
  induction hall with
  | nil => cases hfind
  | @cons first entry Δ env hfirst _ ih =>
      by_cases hname : first.name = name
      · simp only [List.find?_cons, hname, beq_self_eq_true] at hfind
        obtain rfl := Option.some.inj hfind
        refine ⟨entry.2, ?_, hfirst.value, hfirst.known⟩
        simp [Table.get?, hfirst.name, hname]
      · have hbeq : (first.name == name) = false := by simpa using hname
        simp only [List.find?_cons, hbeq] at hfind
        obtain ⟨v, hv, hrest⟩ := ih hfind
        refine ⟨v, ?_, hrest⟩
        have hne : entry.1 ≠ name := fun h => hname (hfirst.name ▸ h)
        simpa [Table.get?, hne] using hv

/-- A name that the scope does not know is not in the store's locals either. -/
theorem Bound.get?_none {name : Text} (h : Bound Γ env locals)
    (hfind : Γ.reverse.find? (·.name == name) = none) : Table.get? env name = none := by
  obtain ⟨-, hall, -⟩ := h
  generalize Γ.reverse = Δ at hall hfind
  induction hall with
  | nil => rfl
  | @cons first entry Δ env hfirst _ ih =>
      by_cases hname : first.name = name
      · simp [hname] at hfind
      · have hbeq : (first.name == name) = false := by simpa using hname
        simp only [List.find?_cons, hbeq] at hfind
        have hne : entry.1 ≠ name := fun h => hname (hfirst.name ▸ h)
        simpa [Table.get?, hne] using ih hfind

/-- Writing the innermost variable of a name changes that one on both sides: the ids are different. -/
theorem holding_set {Δ : List Symbol} {name : Text} {symbol : Symbol} {v : Value}
    (h : List.Forall₂ (Holding locals) Δ env) (hdistinct : (ids Δ).Nodup)
    (hfind : Δ.find? (·.name == name) = some symbol) (hv : v.type.isKnown = true) :
    List.Forall₂ (Holding (locals.set symbol.id v)) Δ (Table.set env name v) := by
  induction h with
  | nil => cases hfind
  | @cons first entry Δ env hfirst hrest ih =>
      simp only [ids, List.map_cons, List.nodup_cons] at hdistinct
      by_cases hname : first.name = name
      · simp only [List.find?_cons, hname, beq_self_eq_true] at hfind
        obtain rfl := Option.some.inj hfind
        have hentry : entry.1 = name := hfirst.name.trans hname
        simp only [Table.set, hentry, if_true]
        refine .cons ⟨hname.symm, Table.get?_set_self _ _ _, hv⟩ (holding_congr hrest ?_)
        intro id hid
        rw [Table.get?_set, if_neg]
        rintro rfl
        exact hdistinct.1 hid
      · have hbeq : (first.name == name) = false := by simpa using hname
        simp only [List.find?_cons, hbeq] at hfind
        have hne : entry.1 ≠ name := fun h => hname (hfirst.name ▸ h)
        have hmem : symbol.id ∈ ids Δ := List.mem_map_of_mem (List.mem_of_find?_eq_some hfind)
        simp only [Table.set, hne, if_false]
        refine .cons ⟨hfirst.name, ?_, hfirst.known⟩ (ih hdistinct.2 hfind)
        rw [Table.get?_set, if_neg, hfirst.value]
        intro hid
        exact hdistinct.1 (hid ▸ hmem)

/-- Writing the innermost variable of a name. -/
theorem Bound.set {name : Text} {symbol : Symbol} {v : Value} (h : Bound Γ env locals)
    (hfind : Γ.reverse.find? (·.name == name) = some symbol) (hv : v.type.isKnown = true) :
    Bound Γ (Table.set env name v) (locals.set symbol.id v) := by
  have hmem : symbol ∈ Γ := List.mem_reverse.mp (List.mem_of_find?_eq_some hfind)
  have hdistinct' : (ids Γ.reverse).Nodup := by
    rw [ids, List.map_reverse]
    exact (List.reverse_perm _).nodup_iff.mpr h.distinct
  refine ⟨h.distinct, holding_set h.found hdistinct' hfind hv, fun id hid => ?_⟩
  rw [Table.get?_set, if_neg, h.absent id hid]
  rintro rfl
  exact hid (List.mem_map_of_mem hmem)

/-- A new variable hides others of its name. -/
theorem Bound.declare {symbol : Symbol} {v : Value} (h : Bound Γ env locals)
    (hid : symbol.id ∉ ids Γ) (hv : v.type.isKnown = true) :
    Bound (Γ ++ [symbol]) ((symbol.name, v) :: env) (locals.set symbol.id v) := by
  refine ⟨?_, ?_, fun id hid' => ?_⟩
  · rw [ids, List.map_append]
    exact List.nodup_append.mpr ⟨h.distinct, by simp, by simpa using hid⟩
  · rw [List.reverse_append]
    refine .cons ⟨rfl, Table.get?_set_self _ _ _, hv⟩ (holding_congr h.found fun id hid' => ?_)
    rw [Table.get?_set, if_neg]
    rintro rfl
    exact hid (by simpa [ids] using hid')
  · simp only [ids, List.map_append, List.map_cons, List.map_nil, List.mem_append,
      List.mem_singleton, not_or] at hid'
    rw [Table.get?_set, if_neg hid'.2, h.absent id hid'.1]

/-- The latest variable is forgotten. -/
theorem Bound.forget {symbol : Symbol} (h : Bound (Γ ++ [symbol]) env locals) :
    Bound Γ (env.drop 1) (locals.erase symbol.id) := by
  obtain ⟨hdistinct, hfound, habsent⟩ := h
  rw [ids, List.map_append] at hdistinct
  have hid : symbol.id ∉ ids Γ := by
    simpa using (List.nodup_append.mp hdistinct).2.2
  rw [List.reverse_append] at hfound
  cases hfound with
  | @cons _ entry _ env _ hrest =>
      refine ⟨(List.nodup_append.mp hdistinct).1, holding_congr hrest fun id hid' => ?_, fun id hid' => ?_⟩
      · rw [Table.get?_erase, if_neg]
        rintro rfl
        exact hid (by simpa [ids] using hid')
      · rw [Table.get?_erase]
        split
        · rfl
        · next hne => exact habsent id (by simpa [ids] using ⟨by simpa [ids] using hid', hne⟩)

/-- Store and scope have equally many locals. -/
theorem Bound.length_eq (h : Bound Γ env locals) : env.length = Γ.length := by
  simpa using h.found.length_eq.symm

/-! ## Machines that stand in a function -/

/-- What stays the same while a call runs: the names of the globals, the program, and the call, whose
code has only offsets that are addresses. -/
structure Scene where
  /-- The names of the globals. -/
  names : List Text
  /-- The program that is loaded. -/
  program : Program
  /-- The call whose code runs, with what lies below it. -/
  call : Machine.Activation
  /-- Its code is short enough for places to be machine words. -/
  short : call.function.code.length < 2 ^ 63

/-- The names of the globals have ids of their own, and every variable of a unit is one of them. -/
structure Named (u : Tables) (names : List Text) : Prop where
  distinct : (names.map Name.id).Nodup
  global : ∀ name symbol, u.globals.get? name = some symbol →
    name ∈ names ∧ symbol.id = Name.id name

/-- A machine that runs agrees with a store, except for local variables. Once conditional jumps are
armed they stay so. -/
structure Agrees (s : Scene) (armed : Bool) (σ : Store) (m : Machine) : Prop where
  /-- The machine runs the program of the scene. -/
  program : m.program = s.program
  /-- It is running. -/
  running : m.state = .running
  /-- And was not killed. -/
  alive : m.killFlag = false
  /-- The store has its globals, by name. -/
  globals : σ.globals = m.contents s.names
  /-- Each of them exists and has a known type. -/
  present : ∀ name ∈ s.names, ∃ v, m.global? name = some v ∧ v.type.isKnown = true
  /-- Both ask the same host. -/
  host : σ.host = m.host
  /-- And have the same object attached. -/
  attached : σ.attached = m.attached
  /-- Conditional jumps are armed if that is known. -/
  armed : armed = true → m.compareFlag = true

/-- A machine whose innermost call stands at an offset, with some operands and saved compare values
of its own. Its locals are related to those of the store by `L`. -/
structure At (s : Scene) (L : LocalsRel) (armed : Bool) (vs : List Value) (cvs : List Bool)
    (offset : Nat) (σ : Store) (m : Machine) : Prop extends Agrees s armed σ m where
  /-- The innermost call is at the place, with the variables of the environment. -/
  frames : ∃ locals, m.frames = s.call.frame offset locals :: s.call.callers ∧ L σ.locals locals
  /-- The values computed so far lie above what was there before. -/
  stack : m.stack = OperandStack.pushAll vs s.call.base
  /-- They have types that the machine knows. -/
  known : ∀ v ∈ vs, v.type.isKnown = true
  /-- The comparisons saved since the call began lie above those saved before. -/
  saved : m.savedCompares = cvs ++ s.call.saved

open Machine

variable {u : Tables} {s : Scene} {offset : Nat} {σ : Store} {armed : Bool} {vs : List Value}
  {cvs : List Bool} {m : Machine} {L : LocalsRel}

/-- Nothing that a store speaks of has changed. -/
theorem Agrees.of_eq {m' : Machine} (h : Agrees s armed σ m) (hprogram : m'.program = m.program)
    (hstate : m'.state = m.state) (hflag : m'.killFlag = m.killFlag)
    (hglobals : m'.globals = m.globals) (hhost : m'.host = m.host)
    (hattached : m'.attached = m.attached) (harmed : armed = true → m'.compareFlag = true) :
    Agrees s armed σ m' where
  program := hprogram.trans h.program
  running := hstate.trans h.running
  alive := hflag.trans h.alive
  globals := by
    rw [h.globals]
    simp only [contents, global?, hglobals]
  present name hname := by
    simpa only [global?, hglobals] using h.present name hname
  host := h.host.trans hhost.symm
  attached := h.attached.trans hattached.symm
  armed := harmed

/-- The count of instructions is no part of the agreement. -/
theorem At.retick (h : At s L armed vs cvs offset σ m) (t : UInt64) :
    At s L armed vs cvs offset σ (m.retick t) :=
  ⟨h.toAgrees.of_eq rfl rfl rfl rfl rfl rfl h.armed, h.frames, h.stack, h.known, h.saved⟩

/-- Whether jumps are armed may be forgotten. -/
theorem At.disarm (h : At s L true vs cvs offset σ m) : At s L armed vs cvs offset σ m :=
  ⟨⟨h.program, h.running, h.alive, h.globals, h.present, h.host, h.attached, fun _ => h.armed rfl⟩,
    h.frames, h.stack, h.known, h.saved⟩

/-- Less may be known of the locals than was. -/
theorem At.loosen {L' : LocalsRel} (h : At s L armed vs cvs offset σ m)
    (hL : ∀ locals, L σ.locals locals → L' σ.locals locals) :
    At s L' armed vs cvs offset σ m := by
  obtain ⟨locals, hframes, hlocals⟩ := h.frames
  exact ⟨h.toAgrees, ⟨locals, hframes, hL locals hlocals⟩, h.stack, h.known, h.saved⟩

/-- A step of a machine that stands before an instruction. -/
theorem At.steps {i : Instr} {P : Machine → Prop} (h : At s L armed vs cvs offset σ m)
    (hcode : Placed s.call.function.code offset [i])
    (hstep : ∀ t, m.WithinLimit → (m.retick t).Next offset i →
      ∃ m', (m.retick t).step = .ok m' ∧ P m') : Steps P m := by
  refine ⟨h.running, h.alive, fun hlimit t => hstep t hlimit ?_⟩
  obtain ⟨locals, hframes, -⟩ := h.frames
  exact ⟨_, _, hframes, rfl, hcode, s.short⟩

/-- A jump changes the offset only. -/
theorem At.goto (h : At s L armed vs cvs offset σ m) (offset' : Nat) :
    At s L armed vs cvs offset' σ (m.goto offset') := by
  obtain ⟨locals, hframes, hbound⟩ := h.frames
  rw [goto_eq hframes]
  exact ⟨h.toAgrees.of_eq rfl rfl rfl rfl rfl rfl h.armed, ⟨locals, rfl, hbound⟩, h.stack, h.known,
    h.saved⟩

/-- Behind an instruction that changes nothing else the agreement holds at the next offset. -/
theorem At.past (h : At s L armed vs cvs offset σ m) (i : Instr) :
    At s L armed vs cvs (offset + i.size) σ (m.past offset i) :=
  h.goto (offset + i.size)

/-- A pushed value stands on top of those that were there. -/
theorem At.push {v : Value} (h : At s L armed vs cvs offset σ m) (hv : v.type.isKnown = true) :
    At s L armed (vs ++ [v]) cvs offset σ (m.push v) := by
  refine ⟨h.toAgrees.of_eq rfl rfl rfl rfl rfl rfl h.armed, h.frames, ?_, fun w hw => ?_, h.saved⟩
  · rw [Machine.push, h.stack, OperandStack.pushAll_concat]
  · rcases List.mem_append.mp hw with hw | hw
    · exact h.known w hw
    · exact List.mem_singleton.mp hw ▸ hv

/-- Some of the operands are left. -/
theorem At.shrink {w : List Value} (h : At s L armed vs cvs offset σ m) (hsub : w ⊆ vs) :
    At s L armed w cvs offset σ { m with stack := OperandStack.pushAll w s.call.base } :=
  ⟨h.toAgrees.of_eq rfl rfl rfl rfl rfl rfl h.armed, h.frames, rfl,
    fun v hv => h.known v (hsub hv), h.saved⟩

/-- Before any operation other than the push of a word, all operands can be popped. -/
theorem At.poppable {i : Instr} (h : At s L armed vs cvs offset σ m) (hlimit : m.WithinLimit)
    (hnext : m.Next offset i) (hop : i.op ≠ .push) : ∀ v ∈ vs, v.Poppable := by
  have hsmall := hlimit (by rw [hnext.nextOpcode?]; simpa using hop) vs s.call.base h.stack h.known
  exact fun v hv => ⟨h.known v hv, hsmall v hv⟩

/-- The top operand can be popped. -/
theorem At.pop? {i : Instr} {v : Value} (h : At s L armed (vs ++ [v]) cvs offset σ m)
    (hlimit : m.WithinLimit) (hnext : m.Next offset i) (hop : i.op ≠ .push) :
    m.stack.pop? = some (v, OperandStack.pushAll vs s.call.base) := by
  have hv := h.poppable hlimit hnext hop v (by simp)
  rw [h.stack, OperandStack.pushAll_concat, OperandStack.pop?_push_poppable hv]

/-- The two operands on top can be popped. -/
theorem At.popTwo {i : Instr} {a b : Value} (h : At s L armed (vs ++ [a] ++ [b]) cvs offset σ m)
    (hlimit : m.WithinLimit) (hnext : m.Next offset i) (hop : i.op ≠ .push) :
    m.stack.pop? = some (b, OperandStack.pushAll (vs ++ [a]) s.call.base)
      ∧ OperandStack.pop? (OperandStack.pushAll (vs ++ [a]) s.call.base)
        = some (a, OperandStack.pushAll vs s.call.base) := by
  have hpoppable := h.poppable hlimit hnext hop
  constructor
  · rw [h.stack, OperandStack.pushAll_concat,
      OperandStack.pop?_push_poppable (hpoppable b (by simp))]
  · rw [OperandStack.pushAll_concat, OperandStack.pop?_push_poppable (hpoppable a (by simp))]

/-! ## Variables -/

/-- A name stands for the same value in the store and in the machine. -/
theorem At.lookup {name : Text} {symbol : Symbol} (h : At s (Bound Γ) armed vs cvs offset σ m)
    (hu : Named u s.names) (hresolves : Resolves u Γ name symbol) :
    ∃ v, σ.lookup? name = some v ∧ m.lookup? symbol.id = some v ∧ v.type.isKnown = true := by
  obtain ⟨locals, hframes, hbound⟩ := h.frames
  have hlocals : m.locals = locals := by simp [Machine.locals, hframes, Activation.frame]
  cases hresolves with
  | visible hfind =>
      obtain ⟨v, hv, hget, hknown⟩ := hbound.get? hfind
      exact ⟨v, by simp [Store.lookup?, hv], by simp [Machine.lookup?, hlocals, hget], hknown⟩
  | global hfind hget hid =>
      obtain ⟨hname, hsymbol⟩ := hu.global name symbol hget
      obtain ⟨v, hv, hknown⟩ := h.present name hname
      refine ⟨v, ?_, ?_, hknown⟩
      · rw [Store.lookup?, hbound.get?_none hfind, h.globals]
        simpa using (m.get?_contents hname).trans hv
      · rw [Machine.lookup?, hlocals, hbound.absent _ hid, hsymbol]
        simpa [global?] using hv

/-- Writing a variable in the store and in the machine. -/
theorem At.assign {name : Text} {symbol : Symbol} {v : Value}
    (h : At s (Bound Γ) armed vs cvs offset σ m) (hu : Named u s.names)
    (hresolves : Resolves u Γ name symbol) (hv : v.type.isKnown = true) :
    At s (Bound Γ) armed vs cvs offset (σ.assign name v) (m.assign symbol.id v) := by
  obtain ⟨locals, hframes, hbound⟩ := h.frames
  have hlocals : m.locals = locals := by simp [Machine.locals, hframes, Activation.frame]
  cases hresolves with
  -- a local variable, in the store and in the call
  | visible hfind =>
      obtain ⟨old, hold, hget, -⟩ := hbound.get? hfind
      have hhas : m.locals.has symbol.id = true := by
        rw [hlocals, Table.has_iff]
        exact ⟨old, hget⟩
      have hhas' : Table.has σ.locals name = true := (Table.has_iff _ _).mpr ⟨old, hold⟩
      simp only [Machine.assign, hhas, if_true, Store.assign, hhas', mapFrame, hframes]
      refine ⟨⟨h.program, h.running, h.alive, h.globals, h.present, h.host, h.attached, h.armed⟩,
        ⟨_, rfl, hbound.set hfind hv⟩, h.stack, h.known, h.saved⟩
  -- a variable of the unit: neither the store nor the call has a local one in its place
  | global hfind hget hid =>
      obtain ⟨hname, hsymbol⟩ := hu.global name symbol hget
      rw [hsymbol] at hid ⊢
      have hhas : m.locals.has (Name.id name) = false := by
        rw [hlocals, Table.has_eq_false_iff]
        exact hbound.absent _ hid
      have hhas' : Table.has σ.locals name = false :=
        (Table.has_eq_false_iff _ _).mpr (hbound.get?_none hfind)
      obtain ⟨old, hold, -⟩ := h.present name hname
      simp only [Machine.assign, hhas, Bool.false_eq_true, if_false, Store.assign, hhas']
      refine ⟨⟨h.program, h.running, h.alive, ?_, fun other hother => ?_, h.host, h.attached,
        h.armed⟩, ⟨locals, hframes, hbound⟩, h.stack, h.known, h.saved⟩
      · rw [h.globals, m.contents_set v hu.distinct hname ⟨old, hold⟩]
      · have hget : global? { m with globals := m.globals.set (Name.id name) v } other
            = if Name.id other = Name.id name then some v else m.global? other :=
          Table.get?_set _ _ _ _
        rw [hget]
        split
        · exact ⟨v, rfl, hv⟩
        · exact h.present other hother

/-- A new variable in the store and in the machine. -/
theorem At.declare {symbol : Symbol} {v : Value} (h : At s (Bound Γ) armed vs cvs offset σ m)
    (hid : symbol.id ∉ ids Γ) (hv : v.type.isKnown = true) :
    At s (Bound (Γ ++ [symbol])) armed vs cvs offset (σ.declare symbol.name v)
      (m.allocate symbol.id v) := by
  obtain ⟨locals, hframes, hbound⟩ := h.frames
  simp only [Machine.allocate, mapFrame, hframes]
  exact ⟨⟨h.program, h.running, h.alive, h.globals, h.present, h.host, h.attached, h.armed⟩,
    ⟨_, rfl, hbound.declare hid hv⟩, h.stack, h.known, h.saved⟩

/-- The latest variable is forgotten in the store and in the machine. -/
theorem At.forget {symbol : Symbol} (h : At s (Bound (Γ ++ [symbol])) armed vs cvs offset σ m) :
    At s (Bound Γ) armed vs cvs offset { σ with locals := σ.locals.drop 1 } (m.free symbol.id) := by
  obtain ⟨locals, hframes, hbound⟩ := h.frames
  simp only [Machine.free, mapFrame, hframes]
  exact ⟨⟨h.program, h.running, h.alive, h.globals, h.present, h.host, h.attached, h.armed⟩,
    ⟨_, rfl, hbound.forget⟩, h.stack, h.known, h.saved⟩

end Gen

end TickScript
