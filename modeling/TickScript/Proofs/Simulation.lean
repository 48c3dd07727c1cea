import TickScript.Proofs.Evaluation
import TickScript.Proofs.Machine.Safe

/-!
# Machines that follow an evaluation

`Steps P m` says what one step of a running machine leads to, `Leads P m` what some steps lead to,
and `Endures n m` that a machine still runs after `n` steps. All three hold whatever the count of
ticks is at each step, since a machine may start a new tick at any time, and as long as the operand
stack stays within its limit. `Simulates` puts them together: a machine follows an evaluation if it
gets to where the answer says, is killed where the evaluation divides by zero, and does not end early
where the evaluation is exhausted.

That a machine does not end early is what makes its steps comparable with the fuel of an evaluation,
and it is the reason why `Simulates` counts steps. The laws are those of the monad of evaluations,
with one for the steps that a machine takes on its own in front of an evaluation.
-/

namespace TickScript

namespace Eval

/-! ## Evaluations as functions -/

section

variable {α β : Type} (σ : Store)

@[simp] theorem run_bind (x : Eval α) (f : α → Eval β) : (x >>= f) σ = match x σ with
    | .ok a σ' => f a σ'
    | .error e σ' => .error e σ' := by
  simp only [bind, EStateM.bind]
  cases x σ <;> rfl

@[simp] theorem run_map (f : α → β) (x : Eval α) : (f <$> x) σ = match x σ with
    | .ok a σ' => .ok (f a) σ'
    | .error e σ' => .error e σ' := by
  simp only [Functor.map, EStateM.map]
  cases x σ <;> rfl

@[simp] theorem run_pure (a : α) : (pure a : Eval α) σ = .ok a σ := rfl

@[simp] theorem run_get : (get : Eval Store) σ = .ok σ σ := rfl

@[simp] theorem run_set (σ' : Store) : (set σ' : Eval PUnit) σ = .ok ⟨⟩ σ' := rfl

@[simp] theorem run_modify (f : Store → Store) : (modify f : Eval PUnit) σ = .ok ⟨⟩ (f σ) := rfl

@[simp] theorem run_throw (e : Halt) : (throw e : Eval α) σ = .error e σ := rfl

end

end Eval

namespace Machine

/-! ## Steps -/

/-- The machine with another count of ticks. -/
def retick (t : UInt64) (m : Machine) : Machine := { m with ticks := t }

/-- A machine runs, and its next step has an answer with a property. -/
def Steps (P : Machine → Prop) (m : Machine) : Prop :=
  m.state = .running ∧ m.killFlag = false ∧
    (m.WithinLimit → ∀ t, ∃ m', (m.retick t).step = .ok m' ∧ P m')

/-- Some steps of a machine lead to a property. -/
inductive Leads (P : Machine → Prop) : Machine → Prop
  | here {m : Machine} : P m → Leads P m
  | step {m : Machine} (next : UInt64 → Machine) : m.state = .running → m.killFlag = false →
    (m.WithinLimit → ∀ t, (m.retick t).step = .ok (next t)) →
    (m.WithinLimit → ∀ t, Leads P (next t)) → Leads P m

/-- A machine runs on for a number of steps. -/
def Endures : Nat → Machine → Prop
  | 0, _ => True
  | n + 1, m => Steps (Endures n) m

variable {P Q : Machine → Prop} {m : Machine} {n : Nat}

/-- More may follow from where the steps lead. -/
theorem Steps.imp (h : Steps P m) (hPQ : ∀ m', P m' → Q m') : Steps Q m := by
  obtain ⟨hstate, halive, hstep⟩ := h
  refine ⟨hstate, halive, fun hlimit t => ?_⟩
  obtain ⟨m', hm', hP⟩ := hstep hlimit t
  exact ⟨m', hm', hPQ m' hP⟩

/-- Going some steps first is leading as well. -/
theorem Leads.of_steps (h : Steps (Leads P) m) : Leads P m := by
  obtain ⟨hstate, halive, hstep⟩ := h
  by_cases hlimit : m.WithinLimit
  · choose next hnext hleads using hstep hlimit
    exact .step next hstate halive (fun _ => hnext) fun _ => hleads
  · exact .step (fun _ => m) hstate halive (fun h => absurd h hlimit) fun h => absurd h hlimit

/-- Leading is transitive. -/
theorem Leads.trans (h : Leads P m) (hPQ : ∀ m', P m' → Leads Q m') : Leads Q m := by
  induction h with
  | here hP => exact hPQ _ hP
  | step next hstate halive hstep _ ih => exact .step next hstate halive hstep ih

theorem Endures.pred (h : Endures (n + 1) m) : Endures n m := by
  induction n generalizing m with
  | zero => trivial
  | succ n ih => exact Steps.imp h fun _ => ih

/-- Enduring `n` steps is enduring fewer. -/
theorem Endures.mono {k : Nat} (h : Endures n m) (hk : k ≤ n) : Endures k m := by
  induction hk with
  | refl => exact h
  | step _ ih => exact ih h.pred

/-- What leads to a machine that endures endures itself. -/
theorem Leads.endures (h : Leads P m) (hP : ∀ m', P m' → Endures n m') : Endures n m := by
  induction h with
  | here h => exact hP _ h
  | step next hstate halive hstep _ ih =>
      refine Endures.pred ⟨hstate, halive, fun hlimit t => ?_⟩
      exact ⟨next t, hstep hlimit t, ih hlimit t⟩

end Machine

open Machine

/-! ## Simulations -/

/-- A machine was killed for a division by zero. -/
structure Machine.Divided (m : Machine) : Prop where
  state : m.state = .killed
  code : m.killCode = .divisionByZero

/-- A machine follows an evaluation. A number of steps is what an exhausted evaluation is worth, and
where an evaluation is stuck, no machine is meant to be. -/
def Simulates {α : Type} (n : Nat) (m : Machine) (outcome : EStateM.Result Halt Store α)
    (post : α → Store → Machine → Prop) : Prop :=
  match outcome with
  | .ok a σ => Leads (post a σ) m
  | .error .divided _ => Leads Divided m
  | .error .exhausted _ => Endures n m
  | .error .stuck _ => Leads (fun _ => False) m

namespace Simulates

variable {α β : Type} {n : Nat} {m : Machine} {post : α → Store → Machine → Prop}

/-- A step counts where the evaluation is exhausted. -/
theorem of_step_succ {outcome : EStateM.Result Halt Store α}
    (h : Steps (fun m' => Simulates n m' outcome post) m) : Simulates (n + 1) m outcome post := by
  match outcome, h with
  | .ok a σ, h => exact Leads.of_steps h
  | .error .divided _, h => exact Leads.of_steps h
  | .error .exhausted _, h => exact h
  | .error .stuck _, h => exact Leads.of_steps h

/-- Following for `n` steps is following for fewer. -/
theorem mono {k : Nat} {outcome : EStateM.Result Halt Store α} (h : Simulates n m outcome post)
    (hk : k ≤ n) : Simulates k m outcome post := by
  match outcome, h with
  | .ok a σ, h => exact h
  | .error .divided _, h => exact h
  | .error .exhausted _, h => exact Endures.mono h hk
  | .error .stuck _, h => exact h

/-- The machine may take steps before it follows. -/
theorem of_steps {outcome : EStateM.Result Halt Store α}
    (h : Steps (fun m' => Simulates n m' outcome post) m) : Simulates n m outcome post :=
  (of_step_succ h).mono (Nat.le_succ n)

/-- It may also be led somewhere before it follows. -/
theorem of_leads {P : Machine → Prop} {outcome : EStateM.Result Halt Store α} (h : Leads P m)
    (hP : ∀ m', P m' → Simulates n m' outcome post) : Simulates n m outcome post := by
  match outcome, hP with
  | .ok a σ, hP => exact h.trans hP
  | .error .divided _, hP => exact h.trans hP
  | .error .exhausted _, hP => exact h.endures hP
  | .error .stuck _, hP => exact h.trans hP

/-- Less may be known of where it ends. -/
theorem imp {outcome : EStateM.Result Halt Store α} {post' : α → Store → Machine → Prop}
    (h : Simulates n m outcome post)
    (hpost : ∀ a σ m', outcome = .ok a σ → post a σ m' → post' a σ m') :
    Simulates n m outcome post' := by
  match outcome, h with
  | .ok a σ, h => exact h.trans fun m' hm' => .here (hpost a σ m' rfl hm')
  | .error .divided _, h => exact h
  | .error .exhausted _, h => exact h
  | .error .stuck _, h => exact h

/-- Evaluations in a row are followed one after the other. -/
theorem bind {x : Eval α} {f : α → Eval β} {σ : Store} {post' : β → Store → Machine → Prop}
    (h : Simulates n m (x σ) post)
    (hf : ∀ a σ' m', post a σ' m' → Simulates n m' (f a σ') post') :
    Simulates n m ((x >>= f) σ) post' := by
  rw [Eval.run_bind]
  match x σ, h with
  | .ok a σ', h => exact of_leads h fun m' => hf a σ' m'
  | .error .divided _, h => exact h
  | .error .exhausted _, h => exact h
  | .error .stuck _, h => exact h

/-- An evaluation without an effect is followed where the machine is. -/
theorem pure {a : α} {σ : Store} (h : post a σ m) : Simulates n m ((Pure.pure a : Eval α) σ) post :=
  Leads.here h

end Simulates

end TickScript
