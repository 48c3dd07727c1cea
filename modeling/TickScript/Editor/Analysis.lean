import TickScript.Project.Manifest
import TickScript.Project.SearchPath
import TickScript.Toml.Parser
import TickScript.Unit

/-!
# Analysing a document

An analysis compiles one document and lists its declarations, those of included files too, in the
order in which they stand. It answers which declaration a name means at a line, which function a
line belongs to, and which declarations complete a word.
-/

namespace TickScript.Editor

/-- What was declared. -/
inductive DeclarationKind where
  | field
  | global
  | function
  | parameter
  | local_
deriving DecidableEq, Repr

/-- The name of a kind of declaration. -/
def DeclarationKind.name : DeclarationKind → Text
  | field => "field"
  | global => "variable"
  | function => "function"
  | parameter => "parameter"
  | local_ => "local"

/-- One declaration. -/
structure Declaration where
  name : Text
  kind : DeclarationKind
  /-- The declaration as it is shown. -/
  detail : Text
  file : Text
  line : Int
  /-- The function around it; empty at the top. -/
  scope : Text
deriving DecidableEq, Repr

/-! ## Collecting declarations -/

/-- A variable of a function. -/
def localOf (scope : Text) (d : VarDecl) : Declaration :=
  ⟨d.name, .local_, d.type.name ++ " " ++ d.name, d.token.file, d.token.line, scope⟩

/-- The variable that a loop starts with. -/
def startLocals (scope : Text) : LoopStart → List Declaration
  | .declare d => [localOf scope d]
  | _ => []

mutual

/-- The variables that a statement declares. -/
def stmtLocals (scope : Text) : Stmt → List Declaration
  | .declare d => [localOf scope d]
  | .expr .. => []
  | .ifElse _ _ _ body rest => bodyLocals scope body ++ branchLocals scope rest
  | .loop _ _ _ _ _ start body => startLocals scope start ++ bodyLocals scope body

/-- The variables that some statements declare. -/
def bodyLocals (scope : Text) : List Stmt → List Declaration
  | [] => []
  | s :: rest => stmtLocals scope s ++ bodyLocals scope rest

/-- The variables that the further branches of an if statement declare. -/
def branchLocals (scope : Text) : Alternatives → List Declaration
  | .none => []
  | .otherwise _ _ body => bodyLocals scope body
  | .elseIf _ _ _ body rest => bodyLocals scope body ++ branchLocals scope rest

end

/-- The declarations that a declaration at the top brings. -/
def declared : Decl → List Declaration
  | .field d =>
    [⟨d.name, .field, "field " ++ d.type.name ++ " " ++ d.name, d.token.file, d.token.line, []⟩]
  | .var d => [⟨d.name, .global, d.type.name ++ " " ++ d.name, d.token.file, d.token.line, []⟩]
  | .function f =>
    ⟨f.name, .function, f.signature, f.token.file, f.token.line, []⟩
      :: f.params.map (fun p =>
        ⟨p.name, .parameter, p.type.name ++ " " ++ p.name, p.token.file, p.token.line, f.name⟩)
      ++ bodyLocals f.name (f.body?.getD [])

/-! ## Analyses -/

/-- What is known of a document. -/
structure Analysis where
  path : Text
  diagnostics : List Diagnostic := []
  declarations : List Declaration := []

/-- The directories in which a document's includes are looked up: those of its project and those of
the environment, as far as either can be read. -/
def searchPaths (env : Environment) (path : Text) : List Text :=
  let project := match Manifest.find Toml.parse env.tree (Path.directory path) with
    | .ok (some m) => m.includePaths
    | _ => []
  project ++ ((SearchPath.ofEnvironment env).toOption.getD [])

/-- Analyses a text as the file at a path. -/
def analyze (env : Environment) (path text : Text) : Analysis :=
  let compiled :=
    compile (.tree env.tree) { includePaths := searchPaths env path } [⟨path, text⟩] []
  { path
    diagnostics := compiled.diagnostics
    declarations := (compiled.program.flatMap declared).filter fun d => !d.name.isEmpty }

namespace Analysis

/-- The function whose header most closely precedes a line of the document; empty before all. -/
def scopeAt (a : Analysis) (line : Int) : Text :=
  let best := a.declarations.foldl (fun (best : Text × Int) d =>
    if d.kind = .function && d.file == a.path && d.line ≤ line && best.2 ≤ d.line then
      (d.name, d.line)
    else best) ([], 0)
  best.1

/-- The declaration that a name means at a line: the closest one before it in the document that is
at the top or in the function around the line, or else the first one at the top anywhere. -/
def lookup? (a : Analysis) (name : Text) (line : Int) : Option Declaration :=
  let scope := a.scopeAt line
  let isCandidate (d : Declaration) : Bool :=
    d.name == name && d.file == a.path && d.line ≤ line && (d.scope.isEmpty || d.scope == scope)
  let closest := (a.declarations.filter isCandidate).foldl (fun best d =>
    match best with
    | none => some d
    | some b => if b.line ≤ d.line then some d else some b) none
  closest.orElse fun _ => a.declarations.find? fun d => d.name == name && d.scope.isEmpty

/-- A text in lower case as far as ASCII words are concerned: the Kelvin sign is a `k` and the
dotted capital I (U+0130) an `i`. -/
def lowered (t : Text) : Text :=
  (Text.runesWithBytes t).flatMap fun
    | (.scalar 0x212A, _) => [0x6B]
    | (.scalar 0x130, _) => [0x69]
    | (_, bytes) => Text.lower bytes

/-- The declarations at the top or in a function whose names start with a word, ignoring case; of
each name the first. -/
def complete (a : Analysis) (word scope : Text) : List Declaration :=
  let start := lowered word
  let found := a.declarations.filter fun d =>
    (d.scope.isEmpty || d.scope == scope) && Text.startsWith (lowered d.name) start
  found.foldl (fun kept d => if kept.any (·.name == d.name) then kept else kept ++ [d]) []

end Analysis

end TickScript.Editor
