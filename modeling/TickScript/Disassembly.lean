import TickScript.Script.Basic
import TickScript.Text.Quoted

/-!
# Disassembly

The readable form of code: one line per instruction with its offset, its mnemonic and its operands,
and behind a semicolon the name of an id. Code that stops decoding ends in a line that says why.
-/

namespace TickScript

namespace Instr

/-- An id with its name, when it has one. -/
def showId (names : Names) (id : Id) : Text :=
  let number := Text.ofInt id.toInt
  match names.get? id with
  | some name => number ++ " ; " ++ name
  | none =>
    if id = Name.nullObject then number ++ " ; null"
    else if id = Name.attachedObject then number ++ " ; attached"
    else number

/-- The bytes in upper-case hexadecimal with blanks between. -/
def showBytes (data : Text) : Text :=
  Text.join " " (data.map fun b => Text.hexPadded 2 b.toNat)

/-- The readable form of an instruction that stands at `offset`. -/
def render (names : Names) (offset : Nat) (i : Instr) : Text :=
  let mnemonic := Text.ofString i.op.mnemonic
  let word (k : Nat) : Int64 := i.operands[k]?.getD 0
  match i.op with
  | .pushVar | .popVar | .call | .free => mnemonic ++ " " ++ showId names (word 0)
  | .push => "PUSH 0x" ++ Text.upper (Text.hex (word 0).toUInt64.toNat)
  | .jumpBy | .jumpIfBy =>
    mnemonic ++ " " ++ Text.ofIntSigned (word 0).toInt ++ " ; -> "
      ++ Text.hexPadded 4 (i.target offset)
  | .jump | .jumpIf => mnemonic ++ " " ++ Text.hexPadded 4 (word 0).toInt
  | .compare => "CMP " ++ Relation.nameOfByte (word 0).toUInt64.toUInt8
  | .combine => "CMPC " ++ Connective.nameOfByte (word 0).toUInt64.toUInt8
  | .allocate =>
    "MEM " ++ Text.ofInt (word 0).toInt ++ " "
      ++ VarType.name ⟨(word 1).toUInt64.toUInt8⟩ ++ " " ++ showId names (word 2)
  | .set =>
    "SET " ++ showId names (word 0) ++ " " ++ Text.ofInt (word 1).toInt ++ " ["
      ++ showBytes i.data ++ "]"
  | .kill => "KILL " ++ Text.ofInt (word 0).toInt
  | _ => mnemonic

/-- The lines of the code in `bytes`, which stand at `offset`. An unaddressable instruction leaves
no listing. -/
def disassembleFrom (names : Names) : (fuel offset : Nat) → (bytes : Text) → Option Text
  | 0, _, _ => some []
  | fuel + 1, offset, bytes =>
    if bytes.isEmpty then some []
    else
      let margin := Text.hexPadded 4 offset ++ "  "
      match decodeHead offset bytes with
      | .error .unaddressable => none
      | .error e => some (margin ++ "<" ++ e.message ++ ">\n")
      | .ok (i, rest) => do
        let more ← disassembleFrom names fuel (offset + i.size) rest
        some (margin ++ i.render names offset ++ "\n" ++ more)

/-- The lines of some code. -/
def disassemble (names : Names) (code : Text) : Option Text :=
  disassembleFrom names code.length 0 code

end Instr

namespace Script

/-- The lines of one section. -/
def disassembleSection (names : Names) (s : Section) : Option Text :=
  let label := (names.get? s.id).getD (Text.ofInt s.id.toInt)
  match s.kind with
  | .function =>
    match FunctionBody.ofPayload s.data with
    | .error e => some ("\n; function " ++ label ++ ": " ++ e.message ++ "\n")
    | .ok f => do
      let code ← Instr.disassemble names f.code
      some ("\n; === function " ++ label ++ " (params=" ++ Text.ofNat f.paramCount.toNat
        ++ ", returns " ++ f.returnType.name ++ ") ===\n" ++ code)
  | kind =>
    match Value.ofPayload s.data with
    | .error e => some ("\n; " ++ kind.name ++ " " ++ label ++ ": " ++ e.message ++ "\n")
    | .ok v =>
      some ("\n; " ++ kind.name ++ " " ++ v.type.name ++ " " ++ label ++ " = "
        ++ Text.quote v.toText ++ "\n")

/-- The readable form of a script. -/
def disassemble (names : Names) (s : Script) : Option Text := do
  let sections ← s.sections.mapM (disassembleSection names)
  let exports := match s.library? with
    | none => []
    | some table =>
      "\n; exports: " ++ Text.ofNat table.exports.length ++ ", dependencies: "
        ++ Text.join ", " table.dependencies ++ "\n"
  some ("; Baranium binary v" ++ Text.ofNat s.version.toNat ++ ", "
    ++ Text.ofNat s.sections.length ++ " sections\n" ++ sections.flatten ++ exports)

end Script

end TickScript
