import TickScript.Machine.Arith
import TickScript.Machine.Basic

/-!
# One instruction

`Machine.step` fetches the instruction at the innermost call's address and carries it out. All
operands are fetched before anything else happens; a fetch outside the code kills the machine. The
one address at which the bounds check itself has no answer is the last one, `2 ^ 63 - 1`: the end of
even a single byte there is no address, and the step fails without touching the machine.
-/

namespace TickScript

/-- Why an instruction ended early. -/
inductive Stop where
  /-- The machine was killed. -/
  | killed
  /-- The end of the bytes to fetch is no address. -/
  | unaddressable
deriving DecidableEq, Repr

/-- Part of an instruction: it changes the machine and may end the instruction. -/
abbrev Exec := EStateM Stop Machine

/-- A tick met the last address; the machine stays as it was left. -/
structure Unaddressable where
  machine : Machine

namespace Exec

/-- Ends the instruction with a kill. -/
def kill {α : Type} (code : KillCode) : Exec α := do
  modify (·.kill code)
  throw .killed

/-! ## Fetching -/

/-- The next `count` bytes of code. -/
def fetchBytes (count : Nat) : Exec Text := do
  let m ← get
  match m.frames with
  | [] => kill .busFault
  | f :: rest =>
    if f.ip < 0 then kill .busFault
    else
      let window := (f.function.code.drop f.ip.toNat).take count
      if window.length < count then kill .busFault
      else
        set { m with frames := { f with ip := f.ip + count } :: rest }
        return window

/-- The next operand of `count` bytes. -/
def fetchWord (count : Nat) : Exec UInt64 := do
  return UInt64.ofNat (Text.ofLittleEndian (← fetchBytes count))

/-- The next operand as an id. -/
def fetchId : Exec Id := do return (← fetchWord 8).toInt64

/-- The next byte. -/
def fetchByte : Exec UInt8 := do return (← fetchWord 1).toUInt8

/-- The opcode byte at the address of the innermost call. -/
def fetchOpcode : Exec UInt8 := do
  let m ← get
  if (m.frames.head?.map (·.ip)) = some 0x7FFFFFFFFFFFFFFF then throw .unaddressable
  fetchByte

/-! ## Stacks -/

/-- Pushes a value. -/
def push (v : Value) : Exec Unit := modify (·.push v)

/-- Takes the value on top. -/
def pop : Exec Value := do
  let m ← get
  match m.stack.pop? with
  | none => kill .stackUnderflow
  | some (v, stack) =>
    set { m with stack }
    return v

/-- Takes the compare value saved last. -/
def popCompare : Exec Bool := do
  let m ← get
  match m.savedCompares with
  | [] => kill .stackUnderflow
  | cv :: savedCompares =>
    set { m with savedCompares }
    return cv

/-! ## Instructions -/

/-- Pushes a variable or one of the two objects with ids of their own. -/
def pushVariable (id : Id) : Exec Unit := do
  let m ← get
  if id = Name.nullObject then push (.ofHandle Name.nullObject.toInt)
  else if id = Name.attachedObject then push (.ofHandle m.attached.toInt)
  else match m.lookup? id with
    | none => kill .undefinedVariable
    | some v => push v

/-- Writes what `f` makes of a variable's present value. -/
def update (id : Id) (f : Value → Value) : Exec Unit := do
  let m ← get
  match m.lookup? id with
  | none => kill .undefinedVariable
  | some old => set (m.assign id (f old))

/-- Enters a function of the program or calls a native. A native that is not done is called again
from `start`, the address of the instruction. -/
def call (start : Int) (id : Id) : Exec Unit := do
  let m ← get
  match m.program.functions.get? id with
  | some function =>
    set { m with frames := { id, function, cvDepth := m.savedCompares.length } :: m.frames }
  | none =>
    match m.natives.get? id with
    | none => kill .undefinedFunction
    | some native =>
      match m.stack.popMany? native.arity with
      | none => kill .stackUnderflow
      | some (arguments, below) =>
        let count := (m.nativeCalls.get? id).getD 0 + 1
        let reply := native.reply { count, ticks := m.ticks, arguments }
        let m := { m with
          nativeCalls := m.nativeCalls.set id count
          printed := reply.printed.reverse ++ m.printed }
        let m := match reply.kill? with
          | some code => m.kill code
          | none => m
        match reply.answer with
        | .failed =>
          set m
          kill .nativeFailure
        | .pending => set { m.mapFrame fun f => { f with ip := start } with state := .waiting }
        | .done result => set ({ m with stack := below }.push result)

/-- Leaves the innermost call. Its locals go with it and the saved compare values are cut back to
what they were when it began. The value on top is the result, as the declared type; that of the
outermost call is the result of the machine. -/
def ret : Exec Unit := do
  let m ← get
  match m.frames with
  | [] => return
  | f :: frames =>
    let saved := m.savedCompares
    set { m with frames, savedCompares := saved.drop (saved.length - f.cvDepth) }
    if f.function.returnType ≠ .void then
      push ((← pop).convert f.function.returnType)
    if frames.isEmpty then
      let result ← pop
      modify fun m => { m with result, state := if m.killFlag then m.state else .finished }

/-- Jumps when conditional jumps are armed and the compare value holds, or at any rate. -/
def jump (conditional : Bool) (target : Int → Int) : Exec Unit :=
  modify fun m =>
    if !conditional || (m.compareFlag && m.compareValue) then
      m.mapFrame fun f => { f with ip := target f.ip }
    else m

/-- Combines the two values on top. -/
def arithmetic (op : BinaryOp) : Exec Unit := do
  let b ← pop
  let a ← pop
  match op.apply a b with
  | none => kill .divisionByZero
  | some v => push v

/-- Creates an object and leaves its handle; the null handle when the host refuses. -/
def instantiate : Exec Unit := do
  let arg ← pop
  let m ← get
  match m.host.instantiate arg with
  | .ok (handle, host) => set ({ m with host }.push (.ofHandle handle.toInt))
  | .error _ => push (.ofHandle Name.nullObject.toInt)

/-- Asks the host something about the object on top, leaves void, and lets `attached` tell what is
attached once the host has done it. -/
def withObject (ask : Handle → Host → Except HostError Host)
    (attached : (handle before : Handle) → Handle) : Exec Unit := do
  let handle := Int64.ofInt (← pop).toInt
  let m ← get
  match ask handle m.host with
  | .ok host => set ({ m with host, attached := attached handle m.attached }.push .void)
  | .error _ => push .void

/-- Carries out an operation whose opcode stood at `start`. -/
def execute (start : Int) : Opcode → Exec Unit
  | .nop => return
  | .clearFlag => modify fun m => { m with compareFlag := false }
  | .setFlag => modify fun m => { m with compareFlag := true }
  | .clearCompare => modify fun m => { m with compareValue := false }
  | .saveCompare => modify fun m => { m with savedCompares := m.compareValue :: m.savedCompares }
  | .restoreCompare => do
    let cv ← popCompare
    modify fun m => { m with compareValue := cv }
  | .pushVar => do pushVariable (← fetchId)
  | .popVar => do
    let id ← fetchId
    let v ← pop
    update id fun old => v.convert old.type
  | .push => do
    let word ← fetchWord 8
    modify fun m => { m with stack := word :: m.stack }
  | .pop => discard pop
  | .pushCompare => do push (.ofBool (← get).compareValue)
  | .call => do call start (← fetchId)
  | .ret => ret
  | .jump => do
    let address ← fetchWord 8
    jump false fun _ => address.toInt64.toInt
  | .jumpIf => do
    let address ← fetchWord 8
    jump true fun _ => address.toInt64.toInt
  | .jumpBy => do
    let distance ← fetchWord 2
    jump false fun ip => ip + Int.bmod distance.toNat 0x10000
  | .jumpIfBy => do
    let distance ← fetchWord 2
    jump true fun ip => ip + Int.bmod distance.toNat 0x10000
  | .mod => arithmetic .mod
  | .div => arithmetic .div
  | .mul => arithmetic .mul
  | .sub => arithmetic .sub
  | .add => arithmetic .add
  | .and => arithmetic .and
  | .or => arithmetic .or
  | .xor => arithmetic .xor
  | .shiftLeft => arithmetic .shiftLeft
  | .shiftRight => arithmetic .shiftRight
  | .compare => do
    let relation ← fetchByte
    let b ← pop
    let a ← pop
    let cv := match Relation.ofByte? relation with
      | some relation => relation.holds (a.order b)
      | none => false
    modify fun m => { m with compareValue := cv }
  | .combine => do
    let connective ← fetchByte
    let saved ← popCompare
    modify fun m => { m with
      compareValue :=
        if Connective.ofByte? connective = some .or then saved || m.compareValue
        else saved && m.compareValue }
  | .allocate => do
    let _size ← fetchWord 8
    let type ← fetchByte
    let id ← fetchId
    modify (·.allocate id (.zero ⟨type⟩))
  | .free => do
    let id ← fetchId
    modify (·.free id)
  | .set => do
    let id ← fetchId
    let size ← fetchWord 8
    let data ← fetchBytes size.toNat
    update id fun old => ⟨old.type, data⟩
  | .instantiate => instantiate
  | .delete => withObject Host.delete fun handle before =>
    if before = handle then Name.nullObject else before
  | .attach => withObject Host.attach fun handle _ => handle
  | .detach => withObject Host.detach fun _ _ => Name.nullObject
  | .kill => do
    let code ← fetchWord 8
    kill code.toInt64

/-- Fetches and carries out one instruction. -/
def instruction : Exec Unit := do
  let start := ((← get).frames.head?.map (·.ip)).getD 0
  match Opcode.ofByte? (← fetchOpcode) with
  | none => kill .invalidOpcode
  | some op => execute start op

end Exec

/-- The machine after one instruction. -/
def Machine.step (m : Machine) : Except Unaddressable Machine :=
  match Exec.instruction m with
  | .ok _ m => .ok m
  | .error .killed m => .ok m
  | .error .unaddressable m => .error ⟨m⟩

end TickScript
