import TickScript.Machine.Host
import TickScript.Machine.KillCode
import TickScript.Machine.OperandStack
import TickScript.Machine.Program

/-!
# The state of a machine

A machine runs the functions of a program. It holds a stack of active calls, the operand stack, the
compare value with a stack of saved ones, the global variables and the objects outside. Functions
that the program lacks are answered by natives, which the host registers.
-/

namespace TickScript

/-- One active call. -/
structure Frame where
  /-- The function that runs. -/
  id : Id
  function : FunctionBody
  /-- The address of the next byte to fetch. -/
  ip : Int := 0
  /-- How many compare values were saved when the call began. -/
  cvDepth : Nat := 0
  locals : Table Id Value := []
deriving DecidableEq, Repr, Inhabited

/-- What a machine is doing. -/
inductive MachineState where
  /-- Nothing was called yet. -/
  | idle
  /-- There is more to do. -/
  | running
  /-- A native asked to be called again. -/
  | waiting
  /-- The function that was called has returned. -/
  | finished
  | killed
deriving DecidableEq, Repr, Inhabited

namespace MachineState

/-- The name of a state. -/
def name : MachineState → String
  | idle => "idle"
  | running => "running"
  | waiting => "waiting"
  | finished => "finished"
  | killed => "killed"

/-- Whether a call is in progress. -/
def isBusy : MachineState → Bool
  | running => true
  | waiting => true
  | _ => false

end MachineState

/-! ## Natives -/

/-- What a native is told about its call. -/
structure NativeCall where
  /-- How often the native has been called, this call included. -/
  count : Nat
  /-- The ticks of the machine. -/
  ticks : UInt64
  arguments : List Value

/-- How a call of a native ended. -/
inductive Answer where
  /-- The machine is killed. -/
  | failed
  /-- The arguments stay and the call runs again at the next tick. -/
  | pending
  | done (result : Value)

/-- What a native does: it may kill the machine and print lines before it answers. It cannot call the
machine that calls it; what hosts do whose natives can is told by the events of
`Proofs.Machine.Lifetime`. -/
structure Reply where
  answer : Answer
  kill? : Option KillCode := none
  printed : List Text := []

/-- A function provided by the host. -/
structure Native where
  /-- The number of arguments. -/
  arity : Nat
  reply : NativeCall → Reply

/-! ## Machines -/

/-- The number of instructions of one tick, unless the host says otherwise. -/
def defaultBudget : Int := 256

/-- A machine. The active calls and the saved compare values have the innermost or latest first. -/
structure Machine where
  program : Program
  host : Host := .memory {}
  natives : Table Id Native := []
  /-- How often each native has been called. -/
  nativeCalls : Table Id Nat := []
  globals : Table Id Value
  /-- The number of instructions of one tick; the default when not positive. -/
  budget : Int := defaultBudget
  frames : List Frame := []
  stack : OperandStack := []
  savedCompares : List Bool := []
  compareValue : Bool := false
  /-- Whether conditional jumps are armed. -/
  compareFlag : Bool := false
  /-- Whether the machine was told to stop. -/
  killFlag : Bool := false
  ticks : UInt64 := 0
  killCode : KillCode := 0
  attached : Handle := Name.nullObject
  state : MachineState := .idle
  result : Value := .void
  /-- The lines that natives printed, latest first. -/
  printed : List Text := []

namespace Machine

/-- A machine for a program. Its globals start at the values of their sections. -/
def ofProgram (p : Program) : Machine := { program := p, globals := p.globals }

/-- Makes a native callable under a name. -/
def register (name : Text) (native : Native) (m : Machine) : Machine :=
  { m with natives := m.natives.set (Name.id name) native }

/-- Pushes a value. -/
def push (v : Value) (m : Machine) : Machine := { m with stack := m.stack.push v }

/-- Stops the machine with a code, which is pushed as an int. -/
def kill (code : KillCode) (m : Machine) : Machine :=
  { m.push (.ofInt code.toInt) with killFlag := true, killCode := code, state := .killed }

/-! ## Variables -/

/-- The local variables of the innermost call. -/
def locals (m : Machine) : Table Id Value := (m.frames.head?.map (·.locals)).getD []

/-- Changes the innermost call. -/
def mapFrame (f : Frame → Frame) (m : Machine) : Machine :=
  match m.frames with
  | [] => m
  | top :: rest => { m with frames := f top :: rest }

/-- A variable as the running code sees it: a local one, else a global. -/
def lookup? (m : Machine) (id : Id) : Option Value :=
  (m.locals.get? id).orElse fun _ => m.globals.get? id

/-- Writes a variable in the place where it was found. -/
def assign (id : Id) (v : Value) (m : Machine) : Machine :=
  if m.locals.has id then m.mapFrame fun f => { f with locals := f.locals.set id v }
  else { m with globals := m.globals.set id v }

/-- Creates a local variable anew. -/
def allocate (id : Id) (v : Value) (m : Machine) : Machine :=
  m.mapFrame fun f => { f with locals := f.locals.set id v }

/-- Drops a local variable. -/
def free (id : Id) (m : Machine) : Machine :=
  m.mapFrame fun f => { f with locals := f.locals.erase id }

/-- A global by its name. -/
def global? (m : Machine) (name : Text) : Option Value := m.globals.get? (Name.id name)

/-- There is no such field. -/
structure NoField where
  name : Text
deriving DecidableEq, Repr

/-- The wording of the error. -/
def NoField.message (e : NoField) : Text := "no field " ++ e.name

/-- Sets a field from outside, as a value of its type. -/
def setField (name : Text) (v : Value) (m : Machine) : Except NoField Machine :=
  let id := Name.id name
  match m.globals.get? id with
  | none => .error ⟨name⟩
  | some old =>
    if m.program.fields.contains id then
      .ok { m with globals := m.globals.set id (v.convert old.type) }
    else .error ⟨name⟩

end Machine

end TickScript
