import TickScript.Script.Basic

/-!
# Loaded programs

A program holds the sections of all scripts that were loaded into it: functions by id, the initial
values of fields and variables, and the names known for ids. No two sections share an id. A script
that fails to load leaves behind the sections that came before the faulty one.
-/

namespace TickScript

/-- Why a script does not load. -/
inductive LoadError where
  | duplicate (name : Text)
  | badFunction (name : Text) (error : PayloadError)
  | badGlobal (kind : SectionKind) (name : Text) (error : PayloadError)
  | unknownKind (id : Id) (kind : SectionKind)
deriving DecidableEq, Repr

/-- The wording of a load error. -/
def LoadError.message : LoadError → Text
  | duplicate name => "duplicate section " ++ name
  | badFunction name error => "function " ++ name ++ ": " ++ error.message
  | badGlobal kind name error => kind.name ++ " " ++ name ++ ": " ++ error.message
  | unknownKind id kind =>
    "section " ++ Text.ofInt id.toInt ++ " has unknown kind " ++ Text.ofNat kind.tag.toNat

/-- The sections that machines run. -/
structure Program where
  functions : Table Id FunctionBody := []
  /-- What each function is called, as known when it was loaded or names were added last. -/
  functionNames : Table Id Text := []
  globals : Table Id Value := []
  /-- The globals that are fields. -/
  fields : List Id := []
  names : Names := []
deriving DecidableEq, Repr, Inhabited

namespace Program

/-- The name of an id, or the id itself. -/
def nameOf (p : Program) (id : Id) : Text :=
  (p.names.get? id).getD ("#" ++ Text.ofInt id.toInt)

/-- What a function is called. -/
def functionName (p : Program) (id : Id) : Text := (p.functionNames.get? id).getD []

/-- Adds one section. -/
def addSection (p : Program) (s : Section) : Except LoadError Program :=
  if p.functions.has s.id || p.globals.has s.id then .error (.duplicate (p.nameOf s.id))
  else if s.kind = .function then
    match FunctionBody.ofPayload s.data with
    | .error e => .error (.badFunction (p.nameOf s.id) e)
    | .ok f =>
      .ok { p with
        functions := p.functions.set s.id f
        functionNames := p.functionNames.set s.id (p.nameOf s.id) }
  else if s.kind = .field || s.kind = .var then
    match Value.ofPayload s.data with
    | .error e => .error (.badGlobal s.kind (p.nameOf s.id) e)
    | .ok v =>
      .ok { p with
        globals := p.globals.set s.id v
        fields := if s.kind = .field then p.fields ++ [s.id] else p.fields }
  else .error (.unknownKind s.id s.kind)

/-- Adds sections up to the first that fails. -/
def addSections (p : Program) : List Section → Program × Option LoadError
  | [] => (p, none)
  | s :: rest =>
    match p.addSection s with
    | .error e => (p, some e)
    | .ok p => p.addSections rest

/-- Records names. -/
def setNames (p : Program) (names : List (Id × Text)) : Program :=
  { p with names := names.foldl (fun known entry => known.set entry.1 entry.2) p.names }

/-- Loads a script. The exports of a library lend their names first. -/
def load (p : Program) (s : Script) : Program × Option LoadError :=
  let exported := (s.library?.map (·.exports)).getD []
  (p.setNames (exported.map fun e => (e.id, e.name))).addSections s.sections

/-- Records names and calls the functions by them. -/
def addNames (p : Program) (names : Names) : Program :=
  let p := p.setNames names
  { p with functionNames := p.functions.keys.map fun id => (id, p.nameOf id) }

end Program

end TickScript
