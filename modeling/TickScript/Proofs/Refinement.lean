import TickScript.Proofs.Codegen.Calls
import TickScript.Proofs.Session

/-!
# Compiled functions do what they mean

A host calls a function of a compiled unit and lets the machine run. The run finishes with a value
and some globals exactly when the evaluation of the function returns them, and it is killed for a
division by zero exactly when the evaluation divides by zero (`run_iff_evaluation`). The machine may
take any number of ticks of any length for it. What it cannot do is pop a value of more than
`OperandStack.maxValueSize` bytes: the equivalence holds for runs that stay within this limit, and
fails beyond it (`oversized_argument_not_returned`).

The evaluation is bounded by fuel and the run by a number of ticks, and neither bound has a meaning
of its own. Both directions of the equivalence go from one bound to the other: an evaluation with an
answer is followed by some number of steps, hence of ticks of any length (`Simulates.run`); and a
run that ends would be endured for too long by an evaluation that is exhausted for every amount of
fuel (`run_iff_of_simulates`).

The first example has all that the equivalence is about in a few lines: a loop, a recursion, a
hidden variable and a global that is changed. The second shows that the limit is needed.
-/

namespace TickScript

namespace Machine

variable {P : Machine → Prop} {m m' : Machine}

/-! ## Runs -/

/-- No value that is popped in the course of the ticks of a machine exceeds the limit. -/
def StaysWithin (m : Machine) : Prop :=
  ∀ later now, Relation.ReflTransGen (fun a b => a.tick = .ok b) m later → later.Executes now →
    now.WithinLimit

/-- What holds of everything that a machine executes holds of what it executes later. -/
theorem StaysWithin.tick (h : m.StaysWithin) (htick : m.tick = .ok m') : m'.StaysWithin :=
  fun later now hticks => h later now (.head htick hticks)

/-- It holds of each machine on the way. -/
theorem StaysWithin.executes {now : Machine} (h : m.StaysWithin) (hnow : m.Executes now) :
    now.WithinLimit :=
  h m now .refl hnow

/-- How a machine that has come to an end has ended. -/
def outcome (m : Machine) : Except RunError Value :=
  match m.state with
  | .finished => .ok m.result
  | .killed => .error (.killed m.killCode)
  | .idle => .error .idle
  | _ => .error .cancelled

/-- A machine that has come to an end. -/
def Ended (m : Machine) : Prop := m.state = .finished ∨ m.state = .killed

/-- A machine that has ended does nothing in a tick. -/
theorem Ended.tick (h : m.Ended) : m.tick = .ok m := by
  rcases h with h | h <;> simp [Machine.tick, h, MachineState.isBusy]

/-- Running it gives its outcome at once. -/
theorem Ended.run (h : m.Ended) (patience : Nat) : m.run (patience + 1) = .ok (m.outcome, m) := by
  simp only [Machine.run, h.tick, bind, Except.bind, outcome]
  rcases h with h | h <;> simp [h] <;> rfl

theorem Ended.steps (h : m.Ended) (count : Nat) : Machine.steps count m = .ok m := by
  cases count with
  | zero => rfl
  | succ count => rcases h with h | h <;> simp [Machine.steps, h]

/-- A tick of a running machine is a slice. -/
theorem tick_running (h : m.state = .running) :
    m.tick = Machine.steps m.tickLength (m.retick (m.ticks + 1)) := by
  have hretick : { m with ticks := m.ticks + 1, state := .running } = m.retick (m.ticks + 1) := by
    rw [retick, ← h]
  simp [Machine.tick, h, MachineState.isBusy, ← hretick]

/-- A slice has one step at least. -/
theorem tickLength_pos (m : Machine) : 0 < m.tickLength := by
  unfold tickLength
  split
  · decide
  · omega

/-- What a running machine carries out in its tick. -/
theorem executes_of_steps {now : Machine} {k : Nat} (h : m.state = .running) (hk : k < m.tickLength)
    (hsteps : Machine.steps k (m.retick (m.ticks + 1)) = .ok now) (hstate : now.state = .running)
    (halive : now.killFlag = false) : m.Executes now := by
  have hretick : { m with ticks := m.ticks + 1, state := .running } = m.retick (m.ticks + 1) := by
    rw [retick, ← h]
  exact ⟨by rw [h]; rfl, k, hk, by rw [hretick, hsteps], hstate, halive⟩

/-- A run that goes on behind a tick. -/
theorem run_of_tick {next : Machine} {r : Except RunError Value} {patience : Nat}
    (htick : m.tick = .ok next) (hrun : next.run patience = .ok (r, m'))
    (hr : r ≠ .error .cancelled) : m.run (patience + 1) = .ok (r, m') := by
  obtain ⟨patience, rfl⟩ : ∃ k, patience = k + 1 := by
    cases patience with
    | zero =>
        simp only [Machine.run, Except.ok.injEq, Prod.mk.injEq] at hrun
        exact absurd hrun.1.symm hr
    | succ k => exact ⟨k, rfl⟩
  rw [Machine.run, htick]
  simp only [bind, Except.bind]
  cases hstate : next.state with
  | finished =>
      rw [Ended.run (.inl hstate)] at hrun
      simpa [outcome, hstate, pure, Except.pure] using hrun
  | killed =>
      rw [Ended.run (.inr hstate)] at hrun
      simpa [outcome, hstate, pure, Except.pure] using hrun
  | idle =>
      have hidle : next.tick = .ok next := by simp [Machine.tick, hstate, MachineState.isBusy]
      rw [Machine.run, hidle] at hrun
      simpa [bind, Except.bind, hstate] using hrun
  | running => exact hrun
  | waiting => exact hrun

/-- A run that has ended ends the same way with more patience. -/
theorem run_add {r : Except RunError Value} {patience : Nat} (more : Nat)
    (h : m.run patience = .ok (r, m')) (hr : r ≠ .error .cancelled) :
    m.run (patience + more) = .ok (r, m') := by
  induction patience generalizing m with
  | zero =>
      simp only [Machine.run, Except.ok.injEq, Prod.mk.injEq] at h
      exact absurd h.1.symm hr
  | succ patience ih =>
      rw [Nat.add_right_comm, Machine.run]
      rw [Machine.run] at h
      cases htick : m.tick with
      | error e => simp [htick, bind, Except.bind] at h
      | ok next =>
          simp only [htick, bind, Except.bind] at h ⊢
          cases hstate : next.state <;> simp only [hstate] at h ⊢
          · exact h
          · exact ih h
          · exact ih h
          · exact h
          · exact h

/-- A machine has one end. -/
theorem run_unique {r r' : Except RunError Value} {m₁ m₂ : Machine} {p q : Nat}
    (h : m.run p = .ok (r, m₁)) (hr : r ≠ .error .cancelled) (h' : m.run q = .ok (r', m₂))
    (hr' : r' ≠ .error .cancelled) : r = r' ∧ m₁ = m₂ := by
  have hleft := run_add q h hr
  have hright := run_add p h' hr'
  rw [Nat.add_comm, hleft] at hright
  simpa using hright

/-- A machine that is led to an end runs to it, from any place in a tick. -/
theorem Leads.ends (h : Leads P m) (hP : ∀ m', P m' → m'.Ended) (count : Nat)
    (hnow : ∀ k < count, ∀ now, Machine.steps k m = .ok now → now.state = .running →
      now.killFlag = false → now.WithinLimit)
    (hlater : ∀ m', Machine.steps count m = .ok m' → m'.StaysWithin) :
    ∃ next m' patience, Machine.steps count m = .ok next
      ∧ next.run patience = .ok (m'.outcome, m') ∧ P m' := by
  induction h generalizing count with
  | @here m hm => exact ⟨m, m, 1, (hP m hm).steps count, (hP m hm).run 0, hm⟩
  | @step m next hstate halive hstep _ ih =>
      have hunfold (k : Nat) {t : UInt64} (hlimit : m.WithinLimit) :
          Machine.steps (k + 1) (m.retick t) = Machine.steps k (next t) := by
        have hstate' : (m.retick t).state = .running := hstate
        have halive' : (m.retick t).killFlag = false := halive
        simp [Machine.steps, hstate', halive', hstep hlimit t]
      cases count with
      | succ count =>
          have hlimit : m.WithinLimit := hnow 0 (by omega) m rfl hstate halive
          have hfirst (k : Nat) : Machine.steps (k + 1) m = Machine.steps k (next m.ticks) :=
            hunfold k (t := m.ticks) hlimit
          rw [hfirst]
          exact ih hlimit m.ticks count
            (fun k hk now hk' => hnow (k + 1) (by omega) now ((hfirst k).trans hk'))
            fun m' hm' => hlater m' ((hfirst count).trans hm')
      | zero =>
          -- the tick is over and the next one begins
          have hstays := hlater m rfl
          obtain ⟨length, hlength⟩ := Nat.exists_eq_succ_of_ne_zero m.tickLength_pos.ne'
          have hlimit : (m.retick (m.ticks + 1)).WithinLimit :=
            hstays.executes (executes_of_steps hstate m.tickLength_pos rfl hstate halive)
          replace hlimit : m.WithinLimit := hlimit
          have htick : m.tick = Machine.steps length (next (m.ticks + 1)) := by
            rw [tick_running hstate, hlength, Nat.succ_eq_add_one, hunfold length hlimit]
          obtain ⟨last, m', patience, hsteps, hrun, hm'⟩ := ih hlimit (m.ticks + 1) length
            (fun k hk now hk' hrunning halive' => hstays.executes (executes_of_steps (k := k + 1)
              hstate (by omega) (by rw [hunfold k hlimit, hk']) hrunning halive'))
            fun m' hm' => hstays.tick (htick.trans hm')
          have hr : m'.outcome ≠ .error .cancelled := by
            rcases hP m' hm' with h | h <;> simp [outcome, h]
          exact ⟨m, m', patience + 1, rfl, run_of_tick (htick.trans hsteps) hrun hr, hm'⟩

/-- A machine that is led to an end runs to it. -/
theorem Leads.run_ends (h : Leads P m) (hP : ∀ m', P m' → m'.Ended) (hstays : m.StaysWithin) :
    ∃ patience m', m.run patience = .ok (m'.outcome, m') ∧ P m' := by
  obtain ⟨next, m', patience, hsteps, hrun, hm'⟩ :=
    h.ends hP 0 (fun k hk => absurd hk (Nat.not_lt_zero k)) fun m' hm' => by
      obtain rfl := Except.ok.inj hm'
      exact hstays
  obtain rfl := Except.ok.inj hsteps
  exact ⟨patience, m', hrun, hm'⟩

/-! ## Runs that do not end -/

/-- The count of ticks has no part in it. -/
theorem Endures.retick {n : Nat} (h : Endures n m) (t : UInt64) : Endures n (m.retick t) := by
  cases n with
  | zero => trivial
  | succ n => exact ⟨h.1, h.2.1, fun hlimit t' => h.2.2 hlimit t'⟩

/-- A machine that endures long enough endures through a slice. -/
theorem Endures.steps {n count : Nat} (h : Endures (count + n) m)
    (hnow : ∀ k < count, ∀ now, Machine.steps k m = .ok now → now.state = .running →
      now.killFlag = false → now.WithinLimit) :
    ∃ m', Machine.steps count m = .ok m' ∧ Endures n m' := by
  induction count generalizing m with
  | zero => exact ⟨m, rfl, by simpa using h⟩
  | succ count ih =>
      rw [Nat.add_right_comm] at h
      obtain ⟨hstate, halive, hstep⟩ := h
      obtain ⟨next, hnext, hendures⟩ := hstep (hnow 0 (by omega) m rfl hstate halive) m.ticks
      have hunfold (k : Nat) : Machine.steps (k + 1) m = Machine.steps k next := by
        have hfirst : m.step = .ok next := hnext
        simp [Machine.steps, hstate, halive, hfirst]
      rw [hunfold]
      exact ih hendures fun k hk now hk' => hnow (k + 1) (by omega) now ((hunfold k).trans hk')

/-- A run of limited patience is over after a number of steps, so a machine that runs on for longer
does not end in it. -/
theorem exists_endures_cancelled (patience : Nat) (m : Machine) (hstays : m.StaysWithin) :
    ∃ n, Endures n m → ∃ m', m.run patience = .ok (.error .cancelled, m') := by
  induction patience generalizing m with
  | zero => exact ⟨0, fun _ => ⟨m, rfl⟩⟩
  | succ patience ih =>
      have hticks {n : Nat} (h : Endures (m.tickLength + (n + 1)) m) :
          ∃ next, m.tick = .ok next ∧ Endures (n + 1) next := by
        have hstate : m.state = .running := (h.mono (by omega : n + 1 ≤ _)).1
        rw [tick_running hstate]
        exact (h.retick (m.ticks + 1)).steps fun k hk now hnow hrunning halive =>
          hstays.executes (executes_of_steps hstate hk hnow hrunning halive)
      cases htick : m.tick with
      | error e =>
          refine ⟨m.tickLength + 1, fun h => ?_⟩
          obtain ⟨next, hnext, -⟩ := hticks h
          rw [htick] at hnext
          cases hnext
      | ok next =>
          obtain ⟨n, hn⟩ := ih next (hstays.tick htick)
          refine ⟨m.tickLength + (n + 1), fun h => ?_⟩
          obtain ⟨next', hnext, hendures⟩ := hticks h
          obtain rfl : next' = next := Except.ok.inj (hnext.symm.trans htick)
          obtain ⟨m', hm'⟩ := hn hendures.pred
          refine ⟨m', ?_⟩
          rw [Machine.run, htick]
          simp only [bind, Except.bind, hendures.1]
          exact hm'

end Machine

/-! ## Runs and evaluations -/

open Machine

/-- A machine that follows an evaluation with an answer runs to where the answer says. -/
theorem Simulates.run {α : Type} {n : Nat} {m : Machine} {outcome : EStateM.Result Halt Store α}
    {post : α → Store → Machine → Prop} (h : Simulates n m outcome post)
    (hpost : ∀ a σ m', post a σ m' → m'.Ended) (hstays : m.StaysWithin)
    (hanswer : ∀ σ, outcome ≠ .error .exhausted σ) :
    ∃ patience m', m.run patience = .ok (m'.outcome, m')
      ∧ ((∃ a σ, outcome = .ok a σ ∧ post a σ m') ∨ ∃ σ, outcome = .error .divided σ ∧ m'.Divided) := by
  match outcome, h with
  | .ok a σ, h =>
      obtain ⟨patience, m', hrun, hm'⟩ := Machine.Leads.run_ends h (hpost a σ) hstays
      exact ⟨patience, m', hrun, .inl ⟨a, σ, rfl, hm'⟩⟩
  | .error .divided σ, h =>
      obtain ⟨patience, m', hrun, hm'⟩ :=
        Machine.Leads.run_ends h (fun _ h => .inr h.state) hstays
      exact ⟨patience, m', hrun, .inr ⟨σ, rfl, hm'⟩⟩
  | .error .exhausted σ, _ => exact absurd rfl (hanswer σ)
  | .error .stuck _, h =>
      obtain ⟨_, _, _, hfalse⟩ := Machine.Leads.run_ends h (fun _ => False.elim) hstays
      exact hfalse.elim

/-- A machine that follows an evaluation within any limit has the same ends. -/
theorem run_iff_of_simulates {m : Machine} {view : Machine → Store} {σ₀ : Store}
    (meaning : Nat → EStateM.Result Halt Store Value)
    (hzero : meaning 0 = .error .exhausted σ₀)
    (h : ∀ n, Simulates n m (meaning (n + 1)) fun v σ m' =>
      m'.state = .finished ∧ m'.result = v ∧ view m' = σ) (hstays : m.StaysWithin) :
    (∀ v σ, (∃ patience m', m.run patience = .ok (.ok v, m') ∧ view m' = σ)
      ↔ ∃ limit, meaning limit = .ok v σ)
    ∧ ((∃ patience m', m.run patience = .ok (.error (.killed .divisionByZero), m'))
      ↔ ∃ limit σ, meaning limit = .error .divided σ) := by
  have hended : ∀ (v : Value) (σ : Store) (m' : Machine),
      m'.state = .finished ∧ m'.result = v ∧ view m' = σ → m'.Ended := fun _ _ _ h => .inl h.1
  have hdivided {m' : Machine} (h : m'.Divided) :
      m'.outcome = .error (.killed .divisionByZero) := by simp [outcome, h.state, h.code]
  -- a run that has ended leaves an evaluation that is not exhausted
  have hlimit {patience : Nat} {r : Except RunError Value} {m' : Machine}
      (hrun : m.run patience = .ok (r, m')) (hr : r ≠ .error .cancelled) :
      ∃ n, ∀ σ, meaning (n + 1) ≠ .error .exhausted σ := by
    obtain ⟨n, hn⟩ := exists_endures_cancelled patience m hstays
    refine ⟨n, fun σ heval => ?_⟩
    have hsim := h n
    rw [heval] at hsim
    obtain ⟨m'', hcancelled⟩ := hn hsim
    rw [hrun] at hcancelled
    exact hr (congrArg Prod.fst (Except.ok.inj hcancelled))
  -- an evaluation that answers had a limit to begin with
  have hpositive {limit : Nat} (hanswer : ∀ σ, meaning limit ≠ .error .exhausted σ) :
      ∃ n, limit = n + 1 := by
    cases limit with
    | zero => exact absurd hzero (hanswer σ₀)
    | succ n => exact ⟨n, rfl⟩
  refine ⟨fun v σ => ⟨?_, ?_⟩, ?_, ?_⟩
  · -- a run that ends well is the run that the evaluation predicts, since runs are unique
    rintro ⟨patience, m', hrun, rfl⟩
    obtain ⟨n, hn⟩ := hlimit hrun (by simp)
    obtain ⟨_, m'', hrun', ⟨a, σ, heval, hstate, hresult, hview⟩ | ⟨_, _, hm''⟩⟩ :=
      (h n).run hended hstays hn
    · have hvalue : m''.outcome = .ok a := by simp [outcome, hstate, hresult]
      rw [hvalue] at hrun'
      obtain ⟨hr, rfl⟩ := run_unique hrun (by simp) hrun' (by simp)
      refine ⟨n + 1, ?_⟩
      rw [heval, Except.ok.inj hr, hview]
    · rw [hdivided hm''] at hrun'
      cases (run_unique hrun (by simp) hrun' (by simp)).1
  · -- an evaluation with an answer is simulated by a run that ends with it
    rintro ⟨limit, heval⟩
    have hanswer : ∀ σ, meaning limit ≠ .error .exhausted σ := by simp [heval]
    obtain ⟨n, rfl⟩ := hpositive hanswer
    obtain ⟨patience, m', hrun, ⟨a, σ', heval', hstate, hresult, hview⟩ | ⟨_, heval', _⟩⟩ :=
      (h n).run hended hstays hanswer
    · obtain ⟨rfl, rfl⟩ := EStateM.Result.ok.inj (heval.symm.trans heval')
      refine ⟨patience, m', ?_, hview⟩
      rw [hrun]
      simp [outcome, hstate, hresult]
    · cases heval.symm.trans heval'
  · -- a run killed by a division: the evaluation does not end well, so it divides
    rintro ⟨patience, m', hrun⟩
    obtain ⟨n, hn⟩ := hlimit hrun (by simp)
    obtain ⟨_, m'', hrun', ⟨a, σ, _, hstate, _⟩ | ⟨σ, heval, _⟩⟩ := (h n).run hended hstays hn
    · have hvalue : m''.outcome = .ok m''.result := by simp [outcome, hstate]
      rw [hvalue] at hrun'
      cases (run_unique hrun (by simp) hrun' (by simp)).1
    · exact ⟨n + 1, σ, heval⟩
  · -- an evaluation that divides by zero is simulated by a run that is killed for it
    rintro ⟨limit, σ, heval⟩
    have hanswer : ∀ σ, meaning limit ≠ .error .exhausted σ := by simp [heval]
    obtain ⟨n, rfl⟩ := hpositive hanswer
    obtain ⟨patience, m', hrun, ⟨_, _, heval', _⟩ | ⟨_, _, hm'⟩⟩ :=
      (h n).run hended hstays hanswer
    · cases heval.symm.trans heval'
    · exact ⟨patience, m', (hdivided hm') ▸ hrun⟩

namespace Machine

/-- A call of a function that exists, with as many arguments as it takes. -/
theorem exists_call {start : Machine} {name : Text} {function : FunctionBody} (args : List Value)
    (hidle : start.state.isBusy = false)
    (hstored : start.program.functions.get? (Name.id name) = some function)
    (hcount : args.length = function.paramCount.toNat) :
    ∃ m, start.call name args = .ok m ∧ m.frames = [{ id := Name.id name, function }]
      ∧ m.state = .running ∧ m.killFlag = false ∧ m.stack = OperandStack.pushAll args []
      ∧ m.budget = start.budget := by
  simp only [Machine.call, Machine.callId, hidle, hstored, hcount, ne_eq, not_true_eq_false, if_false,
    Bool.false_eq_true]
  exact ⟨_, rfl, rfl, rfl, rfl, rfl, rfl⟩

/-- What an evaluation can see of a machine. -/
def store (names : List Text) (m : Machine) : Store :=
  { globals := m.contents names, host := m.host, attached := m.attached }

end Machine

namespace Gen

open Machine

/-- The names of the variables of a unit. -/
def globalNames (program : List Decl) : List Text :=
  program.filterMap fun
    | .field d => some d.name
    | .var d => some d.name
    | .function _ => none

variable {u : Tables} {program : List Decl} {found : List Section} {p : Program}

/-- The globals of a unit are the variables that it declares. -/
theorem mem_globalNames {name : Text} :
    name ∈ globalNames program ↔ ∃ d, DeclaresVariable program d ∧ d.name = name := by
  constructor
  · intro h
    obtain ⟨d, hd, hname⟩ := List.mem_filterMap.mp h
    cases d with
    | field d => exact ⟨d, .field hd, Option.some.inj hname⟩
    | var d => exact ⟨d, .var hd, Option.some.inj hname⟩
    | function f => cases hname
  · rintro ⟨d, hd, rfl⟩
    cases hd with
    | field hd => exact List.mem_filterMap.mpr ⟨_, hd, rfl⟩
    | var hd => exact List.mem_filterMap.mpr ⟨_, hd, rfl⟩

/-- Their ids are among those of the sections, so they are different. -/
theorem globalNames_sublist (h : ∀ d ∈ program, d.Proper) :
    ((globalNames program).map Name.id).Sublist ((program.filter hasSection).map Decl.id) := by
  induction program with
  | nil => exact .slnil
  | cons d program ih =>
      have hrest := ih fun e he => h e (List.mem_cons_of_mem d he)
      have hproper := h d (by simp)
      cases d with
      | field d =>
          rw [List.filter_cons_of_pos rfl, List.map_cons, show Decl.id (.field d) = _ from hproper.2]
          exact hrest.cons_cons _
      | var d =>
          rw [List.filter_cons_of_pos rfl, List.map_cons, show Decl.id (.var d) = _ from hproper.2]
          exact hrest.cons_cons _
      | function f => exact hrest.trans (((List.sublist_cons_self _ _).filter hasSection).map Decl.id)

/-- Every global has a name under its id. -/
theorem Generated.named (h : Generated u program found) : Named u (globalNames program) := by
  refine ⟨(globalNames_sublist h.proper).nodup h.declared.distinct, fun name symbol hget => ?_⟩
  obtain ⟨d, hd, rfl, rfl⟩ := h.declared.variableDeclared name symbol hget
  refine ⟨mem_globalNames.mpr ⟨d, hd, rfl⟩, ?_⟩
  cases hd with
  | field hd => exact (h.proper _ hd).2
  | var hd => exact (h.proper _ hd).2

/-! ## The call of a host -/

/-- The return of the call that a host has made. -/
theorem Leaving.leads_end {s : Scene} {armed : Bool} {v : Value} {σ : Store} {m : Machine}
    (h : Leaving s armed v σ m) (htype : s.call.function.returnType.isKnown = true)
    (hcallers : s.call.callers = []) (hbase : s.call.base = []) :
    Leads (fun m' => m'.state = .finished ∧ m'.result = v.convert s.call.function.returnType
      ∧ m'.store s.names = { σ with locals := [] }) m := by
  obtain ⟨offset, cvs, h, hcode, hresult⟩ := h
  refine Leads.of_steps (h.steps hcode fun t hlimit hnext => ?_)
  obtain ⟨locals, hframes, -⟩ := h.frames
  have hv : v.Poppable := (h.retick t).poppable hlimit hnext (by simp [Instr.plain]) v (by simp)
  have hpoppable : (s.call.function.result v).Poppable := by
    rw [hresult]
    refine ⟨?_, Value.length_convert_le hv.small _⟩
    rw [Value.type_convert htype]
    exact htype
  have hstack : (m.retick t).stack = OperandStack.push v [] := by rw [← hbase]; exact h.stack
  rw [hcallers] at hframes
  refine ⟨_, step_ret_outermost hnext hframes hstack hv hpoppable h.alive, .here ⟨rfl, hresult, ?_⟩⟩
  exact congr (congr (congrArg (Store.mk []) h.globals.symm) h.host.symm) h.attached.symm

/-- A machine that a host has told to call a function follows its evaluation. -/
theorem Complete.simulates_call {names : List Text} {name : Text} {f : FuncDecl} {body : List Stmt}
    {code : Code} {args : List Value} {start m : Machine} (h : Complete u program names p)
    (entry : Entry u program p name f body code) (hprogram : start.program = p)
    (hpresent : ∀ name ∈ names, ∃ v, start.global? name = some v ∧ v.type.isKnown = true)
    (hargs : ∀ v ∈ args, v.WellFormed) (hlength : args.length = f.params.length)
    (hcall : start.call name args = .ok m) (n : Nat) :
    Simulates n m (Eval.function program (n + 1) name args (start.store names)) fun v σ m' =>
      m'.state = .finished ∧ m'.result = v ∧ m'.store names = σ := by
  have hstored : start.program.functions.get? (Name.id name) = some (storedFunction f code) :=
    hprogram ▸ entry.stored
  unfold Machine.call Machine.callId at hcall
  split at hcall
  · cases hcall
  · simp only [hstored] at hcall
    split at hcall
    · cases hcall
    · have hm := Except.ok.inj hcall
      -- the call of the host is the outermost one, with nothing below it
      let s : Scene := ⟨names, p, ⟨Name.id name, storedFunction f code, [], [], []⟩, entry.short⟩
      rw [function_eq entry.found entry.proper.returnType]
      -- where the call has put the arguments, the store of the evaluation has its parameters
      have hentered : At s (fun _ locals => locals = []) false args [] 0
          { start.store names with locals := Eval.parameters f.params args } m := by
        subst hm
        exact ⟨⟨hprogram, rfl, rfl, rfl, hpresent, rfl, rfl, by simp⟩, ⟨[], rfl, rfl⟩, rfl,
          fun v hv => (hargs v hv).known, rfl⟩
      refine (simulates_functionCode entry.compiled (s := s) rfl h.named h.nonnegative
        entry.proper.returnType (h.followsCalls n) hlength rfl hentered).bind
          fun flow σ' m' hflow => ?_
      obtain ⟨v, rfl, hleaving⟩ := hflow
      exact hleaving.leads_end entry.proper.returnType rfl rfl

end Gen

open Machine

/-- A call of a compiled function, where all functions that the unit calls have a body in it, does
what the function means. The run finishes with a value and some globals exactly when the evaluation
returns them, and is killed for a division by zero exactly when the evaluation divides by zero. -/
theorem run_iff_evaluation {store : FileStore} {options : CompileOptions}
    {sources : List Macros.Source} {history : List Text} {script : Script} {p : Program}
    {program : List Decl} {f : FuncDecl} {args : List Value} {start : Machine}
    (hscript : (compile store options sources history).script? = some script)
    (hunit : (compile store options sources history).program = program)
    (hload : ({} : Program).load script = (p, none))
    (hlong : ∀ id f, p.functions.get? id = some f → f.code.length < 2 ^ 63)
    (hbodies : ∀ name count, (name, count) ∈ callSites program →
      ∃ f, .function f ∈ program ∧ f.name = name ∧ f.body?.isSome = true)
    (hf : .function f ∈ program) (hbody : f.body?.isSome = true)
    (hprogram : start.program = p) (hidle : start.state.isBusy = false)
    (hglobals : ∀ d, Gen.DeclaresVariable program d →
      ∃ v, start.global? d.name = some v ∧ v.Fills d.type)
    (hargs : ∀ v ∈ args, v.WellFormed) (hcount : args.length = f.params.length) :
    ∃ m, start.call f.name args = .ok m ∧ (m.StaysWithin →
      (∀ v G, (∃ patience m', m.run patience = .ok (.ok v, m')
          ∧ m'.contents (Gen.globalNames program) = G)
        ↔ ∃ limit σ, Eval.function program limit f.name args (start.store (Gen.globalNames program))
          = .ok v σ ∧ σ.globals = G)
      ∧ ((∃ patience m', m.run patience = .ok (.error (.killed .divisionByZero), m'))
        ↔ ∃ limit σ, Eval.function program limit f.name args
          (start.store (Gen.globalNames program)) = .error .divided σ)) := by
  subst hunit
  obtain ⟨u, -, hgenerated⟩ := compile_generated hscript
  obtain ⟨p', hload', hholds, honly⟩ := hgenerated.load
  obtain rfl : p' = p := congrArg Prod.fst (hload'.symm.trans hload)
  -- the loaded program has everything that the unit calls
  have hcomplete : Gen.Complete u _ (Gen.globalNames _) p' :=
    ⟨⟨_, hgenerated⟩, hholds, hgenerated.named, hgenerated.nonnegative, hlong, hbodies⟩
  obtain ⟨g, body, code, entry⟩ := hcomplete.entry hf hbody
  -- the function that the evaluation finds under the name is the one that is called: names of
  -- functions are declared once
  have hsame : g = f := by
    obtain ⟨hg, hname, hgbody⟩ := Gen.bodyOf?_spec entry.found
    obtain ⟨f', hf', hfsame⟩ := hgenerated.declared.functionKnown f hf
    obtain ⟨g', hg', hgsame⟩ := hgenerated.declared.functionKnown g hg
    rw [hname, hf'] at hg'
    rw [← hfsame hbody, ← hgsame (by simp [hgbody]), Option.some.inj hg']
  subst hsame
  have hwant : args.length = (Gen.storedFunction g code).paramCount.toNat := by
    rw [hcount]
    exact (UInt8.toNat_ofNat_of_lt' (Nat.lt_succ_of_le entry.proper.count)).symm
  obtain ⟨m, hcall, -⟩ := exists_call args hidle (hprogram ▸ entry.stored) hwant
  -- the store of the evaluation starts with what the machine holds in the globals
  have hpresent : ∀ name ∈ Gen.globalNames (compile store options sources history).program,
      ∃ v, start.global? name = some v ∧ v.type.isKnown = true := by
    intro name hname
    obtain ⟨d, hd, rfl⟩ := Gen.mem_globalNames.mp hname
    obtain ⟨v, hv, hfills⟩ := hglobals d hd
    exact ⟨v, hv, hfills.known⟩
  have hsim := hcomplete.simulates_call entry hprogram hpresent hargs hcount hcall
  refine ⟨m, hcall, fun hstays => ?_⟩
  -- the simulation turns into an equivalence, since neither side can end in two ways
  obtain ⟨hfinishes, hdivides⟩ := run_iff_of_simulates (fun limit =>
    Eval.function (compile store options sources history).program limit g.name args
      (start.store (Gen.globalNames (compile store options sources history).program)))
    rfl hsim hstays
  refine ⟨fun v G => ⟨?_, ?_⟩, hdivides⟩
  · rintro ⟨patience, m', hrun, rfl⟩
    obtain ⟨limit, heval⟩ := (hfinishes v _).mp ⟨patience, m', hrun, rfl⟩
    exact ⟨limit, _, heval, rfl⟩
  · rintro ⟨limit, σ, heval, rfl⟩
    obtain ⟨patience, m', hrun, hview⟩ := (hfinishes v σ).mpr ⟨limit, heval⟩
    exact ⟨patience, m', hrun, by rw [← hview]; rfl⟩

/-! ## A function with a loop and a recursion -/

/-- The variables of a unit hold values of their types when the unit has just been loaded. -/
theorem loaded_globals {store : FileStore} {options : CompileOptions}
    {sources : List Macros.Source} {history : List Text} {script : Script} {p : Program}
    (hscript : (compile store options sources history).script? = some script)
    (hload : ({} : Program).load script = (p, none)) (d : VarDecl)
    (hd : Gen.DeclaresVariable (compile store options sources history).program d) :
    ∃ v, (ofProgram p).global? d.name = some v ∧ v.Fills d.type := by
  obtain ⟨u, -, hgenerated⟩ := compile_generated hscript
  obtain ⟨p', hload', hholds, -⟩ := hgenerated.load
  obtain rfl : p' = p := congrArg Prod.fst (hload'.symm.trans hload)
  have hid : d.id = Name.id d.name := by
    cases hd with
    | field hd => exact (hgenerated.proper _ hd).2
    | var hd => exact (hgenerated.proper _ hd).2
  rw [global?, ← hid]
  exact hholds.global d hd

namespace Machine

/-- Whether the operand stack stays short until a machine has ended, within a number of ticks. -/
def staysShortFor : Nat → Machine → Bool
  | 0, m => !m.state.isBusy
  | count + 1, m =>
    m.staysShort && match m.tick with
      | .ok m' => m'.staysShortFor count
      | .error _ => true

/-- A run that is short enough can be checked step by step. -/
theorem staysWithin_of_staysShortFor {count : Nat} {m : Machine} (h : m.staysShortFor count = true) :
    m.StaysWithin := by
  induction count generalizing m with
  | zero =>
      have hidle : m.state.isBusy = false := by simpa [staysShortFor] using h
      have hsame : m.tick = .ok m := by simp [Machine.tick, hidle]
      have hstill {later : Machine}
          (h : Relation.ReflTransGen (fun a b => a.tick = .ok b) m later) : later = m := by
        induction h with
        | refl => rfl
        | tail _ htick ih => exact Except.ok.inj ((ih ▸ htick).symm.trans hsame)
      intro later now hticks hnow
      rw [← hstill hticks, hnow.1] at hidle
      cases hidle
  | succ count ih =>
      simp only [staysShortFor, Bool.and_eq_true] at h
      intro later now hticks hnow
      rcases Relation.ReflTransGen.cases_head hticks with rfl | ⟨next, htick, hticks⟩
      · exact withinLimit_of_staysShort h.1 hnow
      · simp only [htick] at h
        exact ih h.2 later now hticks hnow

end Machine

/-- A function that adds up numbers in a global, hides a variable in a loop and calls itself. -/
def sumSource : Macros.Source :=
  ⟨"sum", "int g;define f(int n)=int{for(int i=1;i<=n;i=i+1){int n=i;g=g+n;}if(n>1){return f(n-1)+g/n;}return g;}"⟩

/-- The unit of `sumSource`. -/
def sumUnit : Compiled := compile (.memory { cwd := "/" }) {} [sumSource]

/-- The script of `sumSource`, loaded. -/
def sumProgram : Program := (({} : Program).load (sumUnit.script?.getD default)).1

/-- A machine for it with short ticks. -/
def sumStart : Machine := { ofProgram sumProgram with budget := 6 }

theorem sumStart_runs : ∃ m patience m', sumStart.call "f" [.ofInt 2] = .ok m
    ∧ m.run patience = .ok (.ok (.ofInt 6), m') ∧ m'.contents ["g"] = [(("g" : Text), Value.ofInt 4)] := by
  -- all that is computed: the unit, its names, that the run is short, and the evaluation
  obtain ⟨hcompiled, hloaded, hlong, hsites, hbody, hnames, hshort, heval⟩ :
      sumUnit.script?.isSome = true
        ∧ (({} : Program).load (sumUnit.script?.getD default)).2 = none
        ∧ (∀ entry ∈ sumProgram.functions, entry.2.code.length < 2 ^ 63)
        ∧ callSites sumUnit.program = [(("f" : Text), 1)]
        ∧ (Eval.bodyOf? sumUnit.program "f").map (fun found => found.1.params.length) = some 1
        ∧ Gen.globalNames sumUnit.program = [("g" : Text)]
        ∧ ((sumStart.call "f" [.ofInt 2]).toOption.map (staysShortFor 25)) = some true
        ∧ (match Eval.function sumUnit.program 9 "f" [.ofInt 2] (sumStart.store ["g"]) with
          | .ok v σ => some (v, σ.globals)
          | .error _ _ => none) = some (.ofInt 6, [(("g" : Text), Value.ofInt 4)]) := by
    decide +kernel
  obtain ⟨⟨f, body⟩, hfound, hcount⟩ := Option.map_eq_some_iff.mp hbody
  obtain ⟨hf, hname, hfbody⟩ := Gen.bodyOf?_spec hfound
  obtain ⟨script, hscript⟩ := Option.isSome_iff_exists.mp hcompiled
  have hload : ({} : Program).load script = (sumProgram, none) := by
    rw [hscript] at hloaded
    refine Prod.ext ?_ hloaded
    rw [sumProgram, hscript]
    rfl
  have hprogram : sumStart.program = sumProgram := by simp only [sumStart, ofProgram]
  have hidle : sumStart.state.isBusy = false := by
    simp only [sumStart, ofProgram, MachineState.isBusy]
  -- after loading each global has a value of its type
  have hvariables (d : VarDecl) (hd : Gen.DeclaresVariable sumUnit.program d) :
      ∃ v, sumStart.global? d.name = some v ∧ v.Fills d.type := by
    simpa only [sumStart, global?] using loaded_globals hscript hload d hd
  have hargs : ∀ v ∈ [Value.ofInt 2], v.WellFormed := by simp [Value.wellFormed_ofInt]
  have hunit : (compile (.memory { cwd := "/" }) {} [sumSource]).program = sumUnit.program := by
    rw [sumUnit]
  obtain ⟨m, hcall, hruns⟩ := run_iff_evaluation hscript hunit hload
    (fun id f hf => hlong _ (Table.get?_mem hf))
    (fun name count hsite => by
      rw [hsites] at hsite
      obtain ⟨rfl, rfl⟩ := Prod.mk.inj (List.mem_singleton.mp hsite)
      exact ⟨f, hf, hname, by simp [hfbody]⟩)
    hf (by simp [hfbody]) hprogram hidle hvariables hargs hcount.symm
  rw [hname] at hcall hruns
  -- a short run cannot push a value beyond the limit
  have hstays : m.StaysWithin := by
    simp only [hcall, Except.toOption, Option.map_some, Option.some.injEq] at hshort
    exact staysWithin_of_staysShortFor hshort
  obtain ⟨σ, heval, hglobals⟩ : ∃ σ, Eval.function sumUnit.program 9 "f" [.ofInt 2]
      (sumStart.store ["g"]) = .ok (.ofInt 6) σ ∧ σ.globals = [(("g" : Text), Value.ofInt 4)] := by
    split at heval
    · next v σ hσ =>
        obtain ⟨rfl, hglobals⟩ := Prod.mk.inj (Option.some.inj heval)
        exact ⟨σ, hσ, hglobals⟩
    · cases heval
  rw [hnames] at hruns
  obtain ⟨patience, m', hrun, hcontents⟩ :=
    ((hruns hstays).1 (.ofInt 6) [(("g" : Text), Value.ofInt 4)]).mpr ⟨9, σ, heval, hglobals⟩
  exact ⟨m, patience, m', hcall, hrun, hcontents⟩

/-! ## Beyond the limit -/

/-- A function that returns its argument. -/
def echoSource : Macros.Source := ⟨"echo", "define f(string s)=string{return s;}"⟩

/-- The unit of `echoSource`. -/
def echoUnit : Compiled := compile (.memory { cwd := "/" }) {} [echoSource]

/-- A machine for it. -/
def echoStart : Machine := ofProgram (({} : Program).load (echoUnit.script?.getD default)).1

/-- The code of `echoSource`. -/
def echoCode : Code :=
  let id := Name.id "f.s"
  [.allocate (Gen.storageSize .string none) .string id, .withWord .popVar id,
    .withWord .pushVar id, .withWord .free id, .plain .ret]

theorem encodable_echoCode : ∀ i ∈ echoCode, i.Encodable := by
  simp only [echoCode, List.forall_mem_cons, List.not_mem_nil, false_implies, implies_true, and_true]
  exact ⟨Instr.encodable_allocate _ _ _, Instr.encodable_withWord rfl trivial,
    Instr.encodable_withWord rfl trivial, Instr.encodable_withWord rfl trivial,
    Instr.encodable_plain rfl⟩

/-- Whether a function has one parameter and returns it at once. -/
def returnsParam (found : FuncDecl × List Stmt) : Bool :=
  match found.1.params, found.2 with
  | [p], [.expr _ _ .return_ (some (.ident t))] => p.name = t.text && p.type = found.1.returnType
  | _, _ => false

/-- The evaluation of a function that returns its parameter. -/
theorem function_returnsParam {program : List Decl} {name : Text} {found : FuncDecl × List Stmt}
    {v : Value} (hfound : Eval.bodyOf? program name = some found) (h : returnsParam found = true)
    (hv : v.type = found.1.returnType) (limit : Nat) (σ : Store) :
    Eval.function program (limit + 1) name [v] σ = .ok v σ := by
  obtain ⟨f, body⟩ := found
  unfold returnsParam at h
  split at h
  · next p _ t hparams hbody =>
      simp only [Bool.and_eq_true, decide_eq_true_eq] at h
      simp only at hparams hbody hv h
      have hentry : Eval.parameters f.params [v] = [(t.text, v)] := by
        simp [hparams, Eval.parameters, h.1, h.2, Value.convert_of_type hv]
      have hread : Store.lookup? { σ with locals := [(t.text, v)] } t.text = some v := by
        simp [Store.lookup?, Table.get?]
      simp [Eval.function, hfound, hbody, Eval.stmts, Eval.andThen, Eval.stmt, Eval.result,
        Expr.isConstant, Expr.literalType?, Eval.expr, Eval.read, hentry, hread,
        Value.convert_of_type hv]
  · cases h

/-- The code of `echoSource` is killed at once if its argument cannot be popped. -/
theorem tick_echoCode {m : Machine} {f : Frame} (hframes : m.frames = [f]) (hip : f.ip = 0)
    (hcode : f.function.code = Instr.encodeAll echoCode) (hstate : m.state = .running)
    (halive : m.killFlag = false) (hpop : m.stack.pop? = none) (hlength : 2 ≤ m.tickLength) :
    ∃ m', m.tick = .ok m' ∧ m'.state = .killed := by
  have hplaced : Placed f.function.code 0 echoCode := hcode ▸ .whole encodable_echoCode
  have hshort : f.function.code.length < 2 ^ 63 := by
    rw [hcode, Instr.length_encodeAll encodable_echoCode]
    decide +kernel
  obtain ⟨more, hmore⟩ := Nat.exists_eq_add_of_le' hlength
  -- the first instruction allocates the parameter
  let first : Machine := allocate (Name.id "f.s") (.zero .string)
    ((m.retick (m.ticks + 1)).past 0 (echoCode.head (by decide)))
  have hfirst : (m.retick (m.ticks + 1)).step = .ok first :=
    step_allocate ⟨f, [], hframes, hip, hplaced.head, hshort⟩
  have hfirst_eq : first = { m.retick (m.ticks + 1) with
      frames := [{ f with ip := 18, locals := f.locals.set (Name.id "f.s") (.zero .string) }] } := by
    simp only [first, past, goto_eq (m := m.retick (m.ticks + 1)) hframes, allocate, mapFrame]
    rfl
  have hnext : first.Next 18 (.withWord .popVar (Name.id "f.s")) := by
    rw [hfirst_eq]
    exact ⟨_, [], rfl, rfl, hplaced.tail.head, hshort⟩
  -- the second one pops the argument, which the stack does not give back
  have hsecond := step_popVar_none hnext (by rw [hfirst_eq]; exact hpop)
  refine ⟨kill .stackUnderflow (first.past 18 (.withWord .popVar (Name.id "f.s"))), ?_, rfl⟩
  rw [tick_running hstate, hmore]
  have hstate' : (m.retick (m.ticks + 1)).state = .running := hstate
  have halive' : (m.retick (m.ticks + 1)).killFlag = false := halive
  have hrunning : first.state = .running := by rw [hfirst_eq]; exact hstate
  have hgoing : first.killFlag = false := by rw [hfirst_eq]; exact halive
  rw [show more + 2 = more + 1 + 1 from rfl]
  simp only [Machine.steps, hstate', halive', hfirst, hrunning, hgoing, hsecond, ne_eq,
    not_true_eq_false, if_false, Bool.false_eq_true]
  exact Ended.steps (.inr rfl) more

/-- The function of `echoSource` does not return a value that cannot be popped. -/
theorem echo_not_returned {v : Value} (h : v.Stackable)
    (hlarge : OperandStack.maxValueSize < v.data.length) :
    ∃ m, echoStart.call "f" [v] = .ok m ∧ ∀ patience v' m', m.run patience ≠ .ok (.ok v', m') := by
  have hstored : echoStart.program.functions.get? (Name.id "f")
      = some ⟨1, .string, Instr.encodeAll echoCode⟩ := by
    decide +kernel
  have hidle : echoStart.state.isBusy = false := by
    simp only [echoStart, ofProgram, MachineState.isBusy]
  obtain ⟨m, hcall, hframes, hstate, halive, hstack, hbudget⟩ :=
    exists_call [v] hidle hstored rfl
  have hticks : 2 ≤ m.tickLength := by
    rw [Machine.tickLength, hbudget]
    simp only [echoStart, ofProgram]
    decide
  have hpop : m.stack.pop? = none := by
    rw [hstack, OperandStack.pushAll_cons, OperandStack.pushAll_nil]
    exact OperandStack.pop?_push_large h hlarge []
  obtain ⟨killed, htick, hkilled⟩ :=
    tick_echoCode hframes rfl rfl hstate halive hpop hticks
  refine ⟨m, hcall, fun patience v' m' hrun => ?_⟩
  have hkill : killed.outcome = .error (.killed killed.killCode) := by simp [outcome, hkilled]
  have hends := Ended.run (.inr hkilled) 0
  rw [hkill] at hends
  cases (run_unique hrun (by simp) (run_of_tick htick hends (by simp)) (by simp)).1

/-- A text with one byte more than can be popped. -/
def oversizedText : Value := .ofText (List.replicate OperandStack.maxValueSize 97)

/-- One byte more than the stack gives back. -/
theorem length_oversizedText : oversizedText.data.length = OperandStack.maxValueSize + 1 := by
  simp [oversizedText, Value.ofText]

/-- The limit cannot be left out: a function that returns its argument does not return one that is too
large to be popped. -/
theorem oversized_argument_not_returned : echoUnit.script?.isSome = true
    ∧ oversizedText.WellFormed
    ∧ Eval.function echoUnit.program 1 "f" [oversizedText] (echoStart.store [])
      = .ok oversizedText (echoStart.store [])
    ∧ ∃ m, echoStart.call "f" [oversizedText] = .ok m
      ∧ ∀ patience v m', m.run patience ≠ .ok (.ok v, m') := by
  obtain ⟨hcompiled, hbody⟩ : echoUnit.script?.isSome = true
      ∧ (Eval.bodyOf? echoUnit.program "f").map
        (fun found => (returnsParam found, found.1.returnType)) = some (true, .string) := by
    decide +kernel
  obtain ⟨found, hfound, hshape⟩ := Option.map_eq_some_iff.mp hbody
  obtain ⟨hreturns, htype⟩ := Prod.mk.inj hshape
  have hlength := length_oversizedText
  have hmax : OperandStack.maxValueSize = 0x100000 := rfl
  refine ⟨hcompiled, Value.wellFormed_ofText _,
    function_returnsParam hfound hreturns htype.symm 0 _, echo_not_returned ⟨rfl, ?_⟩ ?_⟩
  · omega
  · omega

end TickScript
