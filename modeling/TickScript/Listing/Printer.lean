import TickScript.Listing.Lexer
import TickScript.Script.Basic
import TickScript.Text.Quoted

/-!
# From sections to listings

A listing shows every section so that assembling it gives the section back. An id is written by name
only where the name reads back as the same id; a jump is written with a label only where its target
is the start of an instruction or the end of the code.
-/

namespace TickScript.Listing

/-- Why a script has no listing. -/
inductive PrintError where
  | payload (error : PayloadError)
  | code (error : DecodeError)
  | unknownKind (id : Id) (kind : SectionKind)
deriving DecidableEq, Repr

/-- The wording of a print error. -/
def PrintError.message : PrintError → Text
  | payload error => error.message
  | code error => error.message
  | unknownKind id kind =>
    "section " ++ Text.ofInt id.toInt ++ " has unknown kind " ++ Text.ofNat kind.tag.toNat

/-- A word that does not stand for an id of its own. -/
def isReserved (name : Text) : Bool :=
  name == Text.ofString "null" || name == Text.ofString "attached" || name == Text.ofString "true"
    || name == Text.ofString "false"

/-- Whether a text is a name as listings write it. -/
def isName (t : Text) : Bool := nameAt t == some t

/-- An id by name, where the name reads back as the id, and by number otherwise. -/
def showId (names : Names) (id : Id) : Text :=
  if id = Name.nullObject then "null"
  else if id = Name.attachedObject then "attached"
  else match names.get? id with
    | some name =>
      if isName name && Name.id name = id && !isReserved name then name else Text.ofInt id.toInt
    | none => Text.ofInt id.toInt

/-- The initial value of a variable. A float always shows that it is one. -/
def showValue (v : Value) : Text :=
  match v.type with
  | .string => Text.quote v.toText
  | .float =>
    let t := Number.render .single v.toReal
    if t.any fun b => b == 0x2E || b == 0x65 || b == 0x45 || b == 0x6E then t else t ++ ".0"
  | .object =>
    if v.toInt = Name.nullObject.toInt then "null" else Text.ofInt v.toInt
  | .uint => Text.ofInt v.toInt
  | _ => v.toText

/-- The label of an address. -/
def labelOf (address : Int) : Text := "L" ++ Text.hexPadded 4 address

/-- The instructions of code in `bytes`, which stand at `offset`, each with its offset. -/
def placedInstrs : (fuel offset : Nat) → (bytes : Text) → Except DecodeError (List (Nat × Instr))
  | 0, _, _ => .ok []
  | fuel + 1, offset, bytes =>
    if bytes.isEmpty then .ok []
    else do
      let (i, rest) ← Instr.decodeHead offset bytes
      let more ← placedInstrs fuel (offset + i.size) rest
      return (offset, i) :: more

/-- An instruction; `labelled` says which addresses have labels. -/
def showInstr (names : Names) (labelled : Int → Bool) (offset : Nat) (i : Instr) : Text :=
  let mnemonic := Text.ofString i.op.mnemonic
  let word (k : Nat) : Int64 := i.operands[k]?.getD 0
  match i.op with
  | .pushVar | .popVar | .call | .free => mnemonic ++ " " ++ showId names (word 0)
  | .push => "PUSH 0x" ++ Text.upper (Text.hex (word 0).toUInt64.toNat)
  | .jump | .jumpIf | .jumpBy | .jumpIfBy =>
    let target := i.target offset
    mnemonic ++ " " ++ (if labelled target then labelOf target else Text.ofInt (word 0).toInt)
  | .compare => "CMP " ++ Relation.nameOfByte (word 0).toUInt64.toUInt8
  | .combine => "CMPC " ++ Connective.nameOfByte (word 0).toUInt64.toUInt8
  | .allocate =>
    "MEM " ++ Text.ofInt (word 0).toInt ++ " " ++ VarType.name ⟨(word 1).toUInt64.toUInt8⟩ ++ " "
      ++ showId names (word 2)
  | .set =>
    "SET " ++ showId names (word 0) ++ " " ++ Text.ofInt (word 1).toInt ++ " ["
      ++ Text.join " " (i.data.map fun b => Text.ofNat b.toNat) ++ "]"
  | .kill => "KILL " ++ Text.ofInt (word 0).toInt
  | _ => mnemonic

/-- The lines of some code. -/
def showCode (names : Names) (code : Text) : Except DecodeError Text := do
  let placed ← placedInstrs code.length 0 code
  let starts : List Nat := placed.map (·.1) ++ [code.length]
  let targets : List Int := (placed.map fun (offset, i) => i.target offset).filter fun target =>
    0 ≤ target && starts.contains target.toNat
  let labelled (address : Int) : Bool := targets.contains address
  let label (address : Nat) : Text :=
    if labelled address then labelOf address ++ ":\n" else []
  let lines : List Text := placed.map fun (offset, i) =>
    label offset ++ ("    " : Text) ++ showInstr names labelled offset i ++ ("\n" : Text)
  return lines.flatten ++ label code.length

/-- The lines of a section. -/
def showSection (names : Names) (s : Section) : Except PrintError Text :=
  match s.kind with
  | .function =>
    match FunctionBody.ofPayload s.data with
    | .error e => .error (.payload e)
    | .ok f =>
      match showCode names f.code with
      | .error e => .error (.code e)
      | .ok code =>
        .ok (".func " ++ showId names s.id ++ " " ++ Text.ofNat f.paramCount.toNat ++ " "
          ++ f.returnType.name ++ "\n" ++ code)
  | kind =>
    if kind = .field || kind = .var then
      match Value.ofPayload s.data with
      | .error e => .error (.payload e)
      | .ok v =>
        .ok ((if kind = .field then ".field " else ".var ") ++ showId names s.id ++ " "
          ++ v.type.name ++ " " ++ showValue v ++ "\n")
    else .error (.unknownKind s.id kind)

/-- The listing of a script. -/
def print (names : Names) (s : Script) : Except PrintError Text := do
  let sections ← s.sections.mapM (showSection names)
  return Text.join "\n" sections

end TickScript.Listing
