import TickScript.Machine.Step

/-!
# Calls, ticks and runs

A call only prepares the machine. Each tick then carries out a bounded number of instructions, so
that a host can take turns with scripts, and a run ticks until the call has ended.
-/

namespace TickScript

namespace Machine

/-! ## Calls -/

/-- Why a function cannot be called. -/
inductive CallError where
  | busy
  | noFunction (name : Text)
  | wrongCount (name : Text) (want have_ : Nat)
deriving DecidableEq, Repr

/-- The wording of a call error. -/
def CallError.message : CallError → Text
  | busy => "machine is busy"
  | noFunction name => "no function " ++ name
  | wrongCount name want got =>
    name ++ " takes " ++ Text.ofNat want ++ " arguments, got " ++ Text.ofNat got

/-- Starts a function by its id. What an earlier call left behind is cleared. -/
def callId (id : Id) (args : List Value) (m : Machine) : Except CallError Machine :=
  if m.state.isBusy then .error .busy
  else match m.program.functions.get? id with
    | none => .error (.noFunction (m.program.nameOf id))
    | some function =>
      let want := function.paramCount.toNat
      if args.length ≠ want then
        .error (.wrongCount (m.program.functionName id) want args.length)
      else
        .ok { m with
          stack := args.foldl (fun s v => s.push v) []
          savedCompares := []
          compareValue := false
          compareFlag := false
          killFlag := false
          killCode := 0
          result := .void
          frames := [{ id, function }]
          state := .running }

/-- Starts a function by its name. -/
def call (name : Text) (args : List Value) (m : Machine) : Except CallError Machine :=
  m.callId (Name.id name) args

/-! ## Ticks -/

/-- At most `count` instructions, as long as the machine runs. -/
def steps : (count : Nat) → Machine → Except Unaddressable Machine
  | 0, m => .ok m
  | count + 1, m =>
    if m.state ≠ .running then .ok m
    else if m.killFlag then .ok { m with state := .killed }
    else match m.step with
      | .error e => .error e
      | .ok m => steps count m

/-- The number of instructions of a tick. -/
def tickLength (m : Machine) : Nat :=
  (if m.budget ≤ 0 then defaultBudget else m.budget).toNat

/-- One tick. A machine that is not busy stays as it is. -/
def tick (m : Machine) : Except Unaddressable Machine :=
  if m.state.isBusy then steps m.tickLength { m with ticks := m.ticks + 1, state := .running }
  else .ok m

/-! ## Runs -/

/-- Why a run has no result. -/
inductive RunError where
  | killed (code : KillCode)
  /-- Nothing was called. -/
  | idle
  /-- The patience of the caller ran out. -/
  | cancelled
deriving DecidableEq, Repr

/-- The wording of a run error. -/
def RunError.message : RunError → Text
  | killed code => code.message
  | idle => "nothing to run"
  | cancelled => "context canceled"

/-- Ticks until the call has ended, but at most `patience` times. -/
def run : (patience : Nat) → Machine → Except Unaddressable (Except RunError Value × Machine)
  | 0, m => .ok (.error .cancelled, m)
  | patience + 1, m => do
    let m ← m.tick
    match m.state with
    | .finished => return (.ok m.result, m)
    | .killed => return (.error (.killed m.killCode), m)
    | .idle => return (.error .idle, m)
    | _ => m.run patience

end Machine

end TickScript
