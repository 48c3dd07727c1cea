import TickScript.Listing.Parser
import TickScript.Script.Basic
import TickScript.Text.Quoted

/-!
# From listings to sections

An id is written as a name, which is hashed, or as a number, or as `null` or `attached`. A jump may
name a label of its function: absolute jumps take its address, relative ones the distance from their
own end. Numbers are words: an 8-bit operand keeps the low byte of what is written.
-/

namespace TickScript.Listing

/-- A number that cannot be read: which reader refused which text, and why. -/
structure NumberError where
  reader : String
  text : Text
  fault : Number.Fault
deriving DecidableEq, Repr

/-- The wording of a number error. -/
def NumberError.message (e : NumberError) : Text :=
  "strconv." ++ Text.ofString e.reader ++ ": parsing " ++ Text.quote e.text ++ ": "
    ++ e.fault.message

/-- Why an initial value does not fit. -/
inductive ValueError where
  | stringFor (type : VarType)
  | badString
  | badNumber (error : NumberError)
  | unexpected (name : Text)
  | byteList
deriving DecidableEq, Repr

/-- The wording of a value error. -/
def ValueError.message : ValueError → Text
  | stringFor type => "string literal for " ++ type.name
  | badString => "invalid syntax"
  | badNumber error => error.message
  | unexpected name => "unexpected " ++ name
  | byteList => "a byte list is not a value"

/-- What is wrong with a listing that follows the grammar. -/
inductive Complaint where
  | invalidType (name type : Text)
  | badValue (name : Text) (error : ValueError)
  | badParamCount (name count : Text) (error : NumberError)
  | unknownReturn (name type : Text)
  | duplicateLabel (name : Text)
  | unknownMnemonic (name : Text)
  | operandCount (mnemonic : String) (want found : Nat)
  | offsetOutOfRange (offset : Int)
  | needsBytes (mnemonic : String)
  | byteCount (mnemonic : String) (declared found : Nat)
  | badByte (text : Text) (error : NumberError)
  | expectedNumber
  | badNumber (error : NumberError)
  | undefinedLabel (name : Text)
  | unknownType (name : Text)
  | unknownRelation (name : Text)
  | unknownConnective (name : Text)
deriving DecidableEq, Repr

/-- The wording of a complaint. -/
def Complaint.message : Complaint → Text
  | invalidType name type => name ++ " has invalid type " ++ type
  | badValue name error => name ++ ": " ++ error.message
  | badParamCount name count error =>
    name ++ ": parameter count " ++ count ++ ": " ++ error.message
  | unknownReturn name type => name ++ ": unknown return type " ++ type
  | duplicateLabel name => "label " ++ name ++ " defined twice"
  | unknownMnemonic name => "unknown mnemonic " ++ name
  | operandCount mnemonic want found =>
    Text.ofString mnemonic ++ " takes " ++ Text.ofNat want ++ " operands, got " ++ Text.ofNat found
  | offsetOutOfRange offset => "jump offset " ++ Text.ofInt offset ++ " out of range"
  | needsBytes mnemonic => Text.ofString mnemonic ++ " needs a byte list"
  | byteCount mnemonic declared found =>
    Text.ofString mnemonic ++ " declares " ++ Text.ofNat declared ++ " bytes, lists "
      ++ Text.ofNat found
  | badByte text error => "byte " ++ text ++ ": " ++ error.message
  | expectedNumber => "expected a number"
  | badNumber error => error.message
  | undefinedLabel name => "undefined label " ++ name
  | unknownType name => "unknown type " ++ name
  | unknownRelation name => "unknown compare method " ++ name
  | unknownConnective name => "unknown combine method " ++ name

/-- Why a text cannot be assembled. -/
inductive AssembleError where
  | grammar (error : GrammarError)
  | complaint (place : Place) (complaint : Complaint)
deriving DecidableEq, Repr

/-- A place with the name of its file, when it has one. -/
def Place.render (file : Text) (p : Place) : Text :=
  let spot := Text.ofNat p.line ++ ":" ++ Text.ofNat p.column
  if file.isEmpty then spot else file ++ ":" ++ spot

/-- Fails at a place. -/
def complain {α : Type} (place : Place) (complaint : Complaint) : Except AssembleError α :=
  .error (.complaint place complaint)

/-! ## Numbers and values -/

/-- An unsigned number with a base mark. -/
def readUnsigned (bits : Nat) (t : Text) : Except NumberError Nat :=
  match Number.unsignedMarked bits t with
  | .ok n => .ok n
  | .error fault => .error ⟨"ParseUint", t, fault⟩

/-- The word that a signed or unsigned number spells. -/
def readWord (t : Text) : Except NumberError UInt64 :=
  match Number.signedMarked 64 t with
  | .ok n => .ok (Int64.ofInt n).toUInt64
  | .error _ =>
    let unsigned := match t with
      | 0x2B :: rest => rest
      | _ => t
    (readUnsigned 64 unsigned).map UInt64.ofNat

/-- The initial value of a variable. -/
def initialValue (type : VarType) : Argument → Except ValueError Value
  | .string t =>
    if type ≠ .string then .error (.stringFor type)
    else match Text.unquote t with
      | some s => .ok (.ofText s)
      | none => .error .badString
  | .float t =>
    match Number.parse .double t with
    | .ok x => .ok ((Value.ofReal x).convert type)
    | .error (fault, _) => .error (.badNumber ⟨"ParseFloat", t, fault⟩)
  | .int t =>
    match readWord t with
    | .error e => .error (.badNumber e)
    | .ok w =>
      match type with
      | .object => .ok (.ofHandle w.toNat)
      | .float => .ok (.ofReal ((Number.Real.ofInt w.toInt64.toInt).roundTo .double))
      | .uint => .ok (.ofUint w.toNat)
      | _ => .ok ((Value.ofInt w.toNat).convert type)
  | .ident name =>
    if name == Text.ofString "true" || name == Text.ofString "false" then
      .ok ((Value.ofBool (name == Text.ofString "true")).convert type)
    else if name == Text.ofString "null" && type = .object then
      .ok (.ofHandle Name.nullObject.toInt)
    else .error (.unexpected name)
  | .bytes _ => .error .byteList

/-! ## Instructions -/

/-- Where the labels of a function stand. -/
abbrev Labels := Table Text Nat

/-- The names that a listing uses, and a result. -/
abbrev Assembling := StateT Names (Except AssembleError)

/-- The operation of an instruction, with the right number of operands. -/
def operation (i : WrittenInstr) : Except AssembleError Opcode :=
  match Opcode.ofMnemonic? (Text.upper i.mnemonic) with
  | none => complain i.place (.unknownMnemonic i.mnemonic)
  | some op =>
    let want := op.operands.length + (if op.hasData then 1 else 0)
    if i.arguments.length ≠ want then
      complain i.place (.operandCount op.mnemonic want i.arguments.length)
    else .ok op

/-- The items of a byte list; none for any other argument. -/
def byteTexts : Argument → List Text
  | .bytes items => items
  | _ => []

/-- The bytes listed behind the operands of an instruction. -/
def listedBytes (i : WrittenInstr) : List Text :=
  match i.arguments.getLast? with
  | some last => byteTexts last.argument
  | none => []

/-- The size of an instruction. -/
def writtenSize (i : WrittenInstr) : Except AssembleError Nat := do
  let op ← operation i
  return 1 + op.operandBytes + (if op.hasData then (listedBytes i).length else 0)

/-- The addresses of labels, for lines that start at an address. -/
def placeLabels : Labels → (address : Nat) → List Line → Except AssembleError Labels
  | labels, _, [] => .ok labels
  | labels, address, .label place name :: rest =>
    if labels.has name then complain place (.duplicateLabel name)
    else placeLabels (labels.set name address) address rest
  | labels, address, .instr i :: rest => do
    placeLabels labels (address + (← writtenSize i)) rest

/-- A number. -/
def integerWord (a : PlacedArgument) : Except AssembleError UInt64 :=
  match a.argument with
  | .int t =>
    match readWord t with
    | .ok w => .ok w
    | .error e => complain a.place (.badNumber e)
  | _ => complain a.place .expectedNumber

/-- An id. -/
def idWord (a : PlacedArgument) : Assembling UInt64 := do
  match a.argument with
  | .ident name =>
    if name == Text.ofString "null" then return Name.nullObject.toUInt64
    else if name == Text.ofString "attached" then return Name.attachedObject.toUInt64
    else
      modify fun names => names.set (Name.id name) name
      return (Name.id name).toUInt64
  | _ => integerWord a

/-- The address of a label, or the distance to it from `origin?`; a number stands for itself. -/
def targetWord (labels : Labels) (origin? : Option Nat) (a : PlacedArgument) :
    Except AssembleError UInt64 :=
  match a.argument with
  | .ident name =>
    match labels.get? name with
    | none => complain a.place (.undefinedLabel name)
    | some address =>
      match origin? with
      | none => .ok (UInt64.ofNat address)
      | some origin => .ok (Int64.ofInt (address - origin)).toUInt64
  | _ => integerWord a

/-- The distance of a relative jump. -/
def distanceWord (labels : Labels) (origin : Nat) (a : PlacedArgument) :
    Except AssembleError UInt64 := do
  let w ← targetWord labels (some origin) a
  let distance := w.toInt64.toInt
  if distance < -0x8000 || 0x8000 ≤ distance then complain a.place (.offsetOutOfRange distance)
  else return w

/-- A type. -/
def typeWord (a : PlacedArgument) : Except AssembleError UInt64 :=
  match a.argument with
  | .ident name =>
    let type := VarType.ofName name
    if type = .invalid then complain a.place (.unknownType name)
    else .ok (UInt64.ofNat type.tag.toNat)
  | _ => integerWord a

/-- A relation. -/
def relationWord (a : PlacedArgument) : Except AssembleError UInt64 :=
  match a.argument with
  | .ident name =>
    match Relation.all.find? fun r => Text.equalFold r.mnemonic name with
    | some r => .ok (UInt64.ofNat r.byte.toNat)
    | none => complain a.place (.unknownRelation name)
  | _ => integerWord a

/-- A connective. -/
def connectiveWord (a : PlacedArgument) : Except AssembleError UInt64 :=
  match a.argument with
  | .ident name =>
    match [Connective.and, .or].find? fun c => Text.ofString c.mnemonic == Text.upper name with
    | some c => .ok (UInt64.ofNat c.byte.toNat)
    | none => complain a.place (.unknownConnective name)
  | _ => integerWord a

/-- The word of an operand of an instruction that ends at `origin`. -/
def operandWord (labels : Labels) (origin : Nat) (operand : Operand) (a : PlacedArgument) :
    Assembling UInt64 :=
  match operand.name with
  | "id" => idWord a
  | "addr" => targetWord labels none a
  | "off" => distanceWord labels origin a
  | "type" => typeWord a
  | "method" => relationWord a
  | "combine" => connectiveWord a
  | _ => integerWord a

/-- The words of the operands of an instruction that ends at `origin`. -/
def operandWords (labels : Labels) (origin : Nat) :
    List (Operand × PlacedArgument) → Assembling (List Int64)
  | [] => return []
  | (operand, a) :: rest => do
    let word ← operandWord labels origin operand a
    return word.toInt64 :: (← operandWords labels origin rest)

/-- The bytes of a byte list. -/
def readBytes (place : Place) : List Text → Except AssembleError Text
  | [] => .ok []
  | t :: rest =>
    match readUnsigned 8 t with
    | .error e => complain place (.badByte t e)
    | .ok n => do return n.toUInt8 :: (← readBytes place rest)

/-- The bytes behind the operands, which the last operand must count. -/
def dataBytes (i : WrittenInstr) (op : Opcode) (words : List Int64) : Except AssembleError Text :=
  match i.arguments.getLast? with
  | none => .ok []
  | some list =>
    match list.argument with
    | .bytes items =>
      let declared := (words.getLast?.getD 0).toUInt64.toNat
      if declared ≠ items.length then
        complain i.place (.byteCount op.mnemonic declared items.length)
      else readBytes list.place items
    | _ => complain list.place (.needsBytes op.mnemonic)

/-- The instruction that a line at an address stands for. -/
def instruction (labels : Labels) (address : Nat) (i : WrittenInstr) : Assembling Instr := do
  let op ← operation i
  let size ← writtenSize i
  let words ← operandWords labels (address + size) (op.operands.zip i.arguments)
  if op.hasData then
    let data ← dataBytes i op words
    return ⟨op, words, data⟩
  else return ⟨op, words, []⟩

/-- The code of lines that start at an address. -/
def code (labels : Labels) : (address : Nat) → List Line → Assembling (List Instr)
  | _, [] => return []
  | address, .label _ _ :: rest => code labels address rest
  | address, .instr i :: rest => do
    let instr ← instruction labels address i
    return instr :: (← code labels (address + instr.size) rest)

/-! ## Sections -/

/-- The id of a section, which is written as a number or as a name. -/
def sectionId (name : Text) : Assembling Id := do
  match Number.signedMarked 64 name with
  | .ok n => return Int64.ofInt n
  | .error _ =>
    modify fun names => names.set (Name.id name) name
    return Name.id name

/-- The section of a declaration. -/
def itemSection : Item → Assembling Section
  | .global place isField name type value? => do
    let t := VarType.ofName type
    if t = .invalid || t = .void then complain place (.invalidType name type)
    else
      let value ← match value? with
        | none => pure (Value.zero t)
        | some a =>
          match initialValue t a with
          | .ok v => pure v
          | .error e => complain place (.badValue name e)
      let id ← sectionId name
      return ⟨if isField then .field else .var, id, value.toPayload⟩
  | .function place name params returns lines => do
    match readUnsigned 8 params with
    | .error e => complain place (.badParamCount name params e)
    | .ok count =>
      let t := VarType.ofName returns
      if t = .invalid then complain place (.unknownReturn name returns)
      else
        let labels ← placeLabels [] 0 lines
        let instrs ← code labels 0 lines
        let id ← sectionId name
        let body : FunctionBody := ⟨count.toUInt8, t, Instr.encodeAll instrs⟩
        return ⟨.function, id, body.toPayload⟩

/-- The sections of some declarations. -/
def itemSections : List Item → Assembling (List Section)
  | [] => return []
  | item :: rest => do
    let first ← itemSection item
    return first :: (← itemSections rest)

/-- Assembles a listing into a script and the names that it uses. -/
def assemble (source : Text) : Except AssembleError (Script × Names) := do
  match parse source with
  | .error e => throw (.grammar e)
  | .ok items =>
    let (sections, names) ← (itemSections items).run []
    return ({ sections }, names)

end TickScript.Listing
