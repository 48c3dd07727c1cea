import TickScript.Table
import TickScript.Value

/-!
# Objects outside the machine

A script refers to objects by handle and asks the host of the machine to create, delete, attach and
detach them. The usual host keeps the objects in memory and hands out handles in ascending order; a
host may also refuse everything.
-/

namespace TickScript

/-- The handle of an object. -/
abbrev Handle := Int64

/-- Why a host did not do what it was asked. -/
inductive HostError where
  | noObject (handle : Handle)
  | notAttached (handle : Handle)
  | refused (reason : Text)
deriving DecidableEq, Repr

/-- The wording of a host error. -/
def HostError.message : HostError → Text
  | noObject handle => "no object " ++ Text.ofInt handle.toInt
  | notAttached handle => "object " ++ Text.ofInt handle.toInt ++ " is not attached"
  | refused reason => reason

/-- Objects in memory, each with the value it was created from. -/
structure ObjectStore where
  /-- The handle given out last. -/
  last : Handle := 0
  objects : Table Handle Value := []
  attached : Handle := Name.nullObject
deriving Repr, DecidableEq

namespace ObjectStore

/-- Creates an object. -/
def instantiate (arg : Value) (s : ObjectStore) : Handle × ObjectStore :=
  let handle := s.last + 1
  (handle, { s with last := handle, objects := s.objects.set handle arg })

/-- Removes an object, which is then no longer attached. -/
def delete (handle : Handle) (s : ObjectStore) : Except HostError ObjectStore :=
  if s.objects.has handle then
    .ok { s with
      objects := s.objects.erase handle
      attached := if s.attached = handle then Name.nullObject else s.attached }
  else .error (.noObject handle)

/-- Attaches an object in the place of the one that was attached. -/
def attach (handle : Handle) (s : ObjectStore) : Except HostError ObjectStore :=
  if s.objects.has handle then .ok { s with attached := handle } else .error (.noObject handle)

/-- Detaches the object that is attached. -/
def detach (handle : Handle) (s : ObjectStore) : Except HostError ObjectStore :=
  if s.attached = handle then .ok { s with attached := Name.nullObject }
  else .error (.notAttached handle)

end ObjectStore

/-- What answers a machine's requests for objects. -/
inductive Host where
  | memory (store : ObjectStore)
  | refusing (reason : Text)
deriving Repr, DecidableEq

namespace Host

/-- Creates an object. -/
def instantiate (arg : Value) : Host → Except HostError (Handle × Host)
  | memory store =>
    let (handle, store) := store.instantiate arg
    .ok (handle, memory store)
  | refusing reason => .error (.refused reason)

/-- Removes an object. -/
def delete (handle : Handle) : Host → Except HostError Host
  | memory store => (store.delete handle).map memory
  | refusing reason => .error (.refused reason)

/-- Attaches an object. -/
def attach (handle : Handle) : Host → Except HostError Host
  | memory store => (store.attach handle).map memory
  | refusing reason => .error (.refused reason)

/-- Detaches an object. -/
def detach (handle : Handle) : Host → Except HostError Host
  | memory store => (store.detach handle).map memory
  | refusing reason => .error (.refused reason)

end Host

end TickScript
