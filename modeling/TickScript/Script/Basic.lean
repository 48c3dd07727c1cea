import TickScript.Instr

/-!
# Scripts

A compiled unit is a list of sections, one per declaration. A field or variable section holds the
type tag and the data of its initial value, a function section its parameter count, its return type
and its code. A library also carries a table of what it exports.
-/

namespace TickScript

/-- What a section holds; a binary may name a kind by any byte. -/
structure SectionKind where
  tag : UInt8
deriving DecidableEq, Repr, Inhabited

namespace SectionKind

@[match_pattern] def missing : SectionKind := ⟨0⟩
@[match_pattern] def field : SectionKind := ⟨1⟩
@[match_pattern] def var : SectionKind := ⟨2⟩
@[match_pattern] def function : SectionKind := ⟨3⟩

/-- The name of a kind; an unknown one shows its number. -/
def name : SectionKind → Text
  | field => "field"
  | var => "variable"
  | function => "function"
  | kind => "SectionKind(" ++ Text.ofNat kind.tag.toNat ++ ")"

/-- Whether the kind is one of the three that a binary may hold. -/
def isKnown (k : SectionKind) : Bool := 1 ≤ k.tag && k.tag ≤ 3

end SectionKind

/-- One declaration of a compiled unit. -/
structure Section where
  kind : SectionKind
  id : Id
  data : Text
deriving DecidableEq, Repr, Inhabited

/-- One public declaration of a library. -/
structure Export where
  name : Text := []
  id : Id := 0
  kind : SectionKind := .missing
deriving DecidableEq, Repr, Inhabited

/-- What a library offers and what it was built from. A list may be absent, which differs from
being empty in the stored table. -/
structure ExportTable where
  exports? : Option (List Export) := none
  dependencies? : Option (List Text) := none
deriving DecidableEq, Repr, Inhabited

namespace ExportTable

/-- The exports, none when the list is absent. -/
def exports (t : ExportTable) : List Export := t.exports?.getD []

/-- The dependencies, none when the list is absent. -/
def dependencies (t : ExportTable) : List Text := t.dependencies?.getD []

/-- The export with a name. -/
def find? (t : ExportTable) (name : Text) : Option Export := t.exports.find? (·.name == name)

end ExportTable

/-- The newest format version. -/
def formatVersion : UInt32 := 1

/-- A compiled unit; a library has an export table. -/
structure Script where
  version : UInt32 := formatVersion
  sections : List Section
  library? : Option ExportTable := none
deriving DecidableEq, Repr, Inhabited

/-- The first section with an id. -/
def Script.find? (s : Script) (id : Id) : Option Section := s.sections.find? (·.id == id)

/-! ## Payloads -/

/-- A function as stored in its section. -/
structure FunctionBody where
  paramCount : UInt8
  returnType : VarType
  code : Text
deriving DecidableEq, Repr, Inhabited

/-- Why a section's data is no payload of its kind. -/
inductive PayloadError where
  | emptyVariable
  | unknownType (tag : UInt8)
  | wrongSize (type : VarType) (have_ want : Nat)
  | shortFunction (have_ : Nat)
deriving DecidableEq, Repr

/-- The wording of a payload error. -/
def PayloadError.message : PayloadError → Text
  | .emptyVariable => "variable payload is empty"
  | .unknownType tag => "variable payload has unknown type " ++ Text.ofNat tag.toNat
  | .wrongSize type got want =>
    "variable payload for " ++ type.name ++ " has " ++ Text.ofNat got ++ " bytes, want "
      ++ Text.ofNat want
  | .shortFunction got => "function payload too short: " ++ Text.ofNat got ++ " bytes"

/-- The payload of a field or variable. -/
def Value.toPayload (v : Value) : Text := v.type.tag :: v.data

/-- The initial value in the payload of a field or variable. Data of a fixed-size type has exactly
that size. -/
def Value.ofPayload (data : Text) : Except PayloadError Value :=
  match data with
  | [] => .error .emptyVariable
  | tag :: body =>
    let type : VarType := ⟨tag⟩
    if !type.isKnown then .error (.unknownType tag)
    else match type.size? with
      | some size =>
        if body.length = size then .ok ⟨type, body⟩
        else .error (.wrongSize type body.length size)
      | none => .ok ⟨type, body⟩

namespace FunctionBody

/-- The payload of a function. -/
def toPayload (f : FunctionBody) : Text := f.paramCount :: f.returnType.tag :: f.code

/-- The function in a payload. -/
def ofPayload (data : Text) : Except PayloadError FunctionBody :=
  match data with
  | params :: returns :: code => .ok ⟨params, ⟨returns⟩, code⟩
  | _ => .error (.shortFunction data.length)

end FunctionBody

end TickScript
