import TickScript.Editor.Analysis
import TickScript.Editor.References
import TickScript.Editor.Uri

/-!
# The editor server

The server keeps the documents that an editor has open, each with its last analysis, and answers
requests about positions in them. Lines and columns of positions count from zero, columns in bytes.
It answers only after the editor has introduced itself and before it takes its leave.
-/

namespace TickScript.Editor

/-- A place in a document. -/
structure Position where
  line : Nat
  character : Nat
deriving DecidableEq, Repr

/-- A stretch of a document. -/
structure Range where
  start : Position
  stop : Position
deriving DecidableEq, Repr

/-- A stretch of some document. -/
structure Location where
  uri : Text
  range : Range
deriving DecidableEq, Repr

/-- What an editor shows for a diagnostic. -/
structure Notice where
  range : Range
  message : Text
deriving DecidableEq, Repr

/-- The diagnostics of a document as they are sent to the editor. -/
structure Publication where
  uri : Text
  notices : List Notice
deriving DecidableEq, Repr

/-- What a completion offers. -/
inductive ItemKind where
  | keyword
  | function
  | field
  | variable_
deriving DecidableEq, Repr

/-- One completion. -/
structure CompletionItem where
  label : Text
  kind : ItemKind
  detail? : Option Text
deriving DecidableEq, Repr

/-! ## Words at a position -/

/-- A line of a text from its beginning to a column, and the rest of it. -/
def splitAt (text : Text) (pos : Position) : Option (Text × Text) :=
  (Text.splitOn 0x0A text)[pos.line]?.map fun line =>
    (line.take pos.character, line.drop pos.character)

/-- The part of a word in front of a position. -/
def wordBefore (text : Text) (pos : Position) : Text :=
  match splitAt text pos with
  | some (before, _) => (before.reverse.takeWhile Text.isWord).reverse
  | none => []

/-- The word around a position. -/
def wordAt (text : Text) (pos : Position) : Text :=
  match splitAt text pos with
  | some (before, after) =>
    (before.reverse.takeWhile Text.isWord).reverse ++ after.takeWhile Text.isWord
  | none => []

/-! ## What is shown -/

/-- A stretch of a line, which counts from one. -/
def lineRange (line : Int) (start stop : Nat) : Range :=
  let l := (line - 1).toNat
  ⟨⟨l, start⟩, ⟨l, stop⟩⟩

/-- A diagnostic as a whole line of its document. One of an included file is shown on the first line
and names its place. -/
def noticeOf (a : Analysis) (lines : List Text) (d : Diagnostic) : Notice :=
  let elsewhere := !d.file.isEmpty && d.file != a.path
  let line := if elsewhere then 1 else d.line
  let message := if elsewhere then d.render else d.cause.message
  let length := if line < 1 then 0 else (lines[(line - 1).toNat]?.map (·.length)).getD 0
  ⟨lineRange line 0 length, message⟩

/-- The diagnostics of a document. -/
def noticesOf (a : Analysis) (text : Text) : List Notice :=
  a.diagnostics.map (noticeOf a (Text.splitOn 0x0A text))

/-- How a declaration is shown when the pointer rests on it. -/
def hoverText (d : Declaration) : Text :=
  let place : Text := if d.scope.isEmpty then [] else Text.ofString " in `" ++ d.scope ++ "`"
  Text.ofString "```baranium\n" ++ d.detail ++ "\n```\n\n" ++ d.kind.name ++ place

/-- The greatest number of completions. -/
def maxItems : Nat := 100

/-- What kind of completion a declaration is. -/
def itemKind : DeclarationKind → ItemKind
  | .function => .function
  | .field => .field
  | _ => .variable_

/-- The keywords and declarations that complete a word on a line. -/
def completions (a : Analysis) (word : Text) (line : Int) : List CompletionItem :=
  let isLonger (keyword : Text) : Bool :=
    word.length < keyword.length && Text.startsWith keyword word
      && keyword.all fun b => Text.isLetter b || b == 0x5F
  let keywords : List CompletionItem :=
    (TokenKind.keywords.filter fun entry => isLonger entry.1).map fun entry =>
      ⟨entry.1, .keyword, none⟩
  let names : List CompletionItem := (a.complete word (a.scopeAt line)).map fun d =>
    ⟨d.name, itemKind d.kind, some d.detail⟩
  (keywords ++ names).take maxItems

/-! ## Requests -/

/-- What an editor asks. -/
inductive Request where
  /-- The editor introduces itself. -/
  | introduce
  /-- The editor is ready for what the server publishes. -/
  | ready
  /-- The editor takes its leave. -/
  | leave
  | setTrace
  | didOpen (uri text : Text)
  /-- A change; the text is there when the last change replaces the whole document. -/
  | didChange (uri : Text) (text? : Option Text)
  | didClose (uri : Text)
  | completion (uri : Text) (pos : Position)
  | hover (uri : Text) (pos : Position)
  | definition (uri : Text) (pos : Position)
  | references (uri : Text) (pos : Position)
deriving DecidableEq, Repr

/-- What the server answers. -/
inductive Response where
  | nothing
  /-- The version of the server, along with what it can do. -/
  | capabilities (version : Text)
  | items (items : List CompletionItem)
  | hover (markdown : Text)
  | locations (locations : List Location)
deriving DecidableEq, Repr

/-- Why the server does not answer. -/
inductive ServerError where
  | notIntroduced
  /-- The worker was stopped once already. -/
  | stoppedTwice
deriving DecidableEq, Repr

/-- The wording of a server error. -/
def ServerError.message : ServerError → Text
  | notIntroduced => "server not initialized"
  | stoppedTwice => "close of closed channel"

/-- A server. -/
structure Server where
  version : Text
  /-- Whether an editor has introduced itself and not left. -/
  introduced : Bool := false
  /-- Whether the worker that analyses documents has been stopped. -/
  stopped : Bool := false
  documents : Table Text (Text × Analysis) := []

namespace Server

/-- Runs a job on the worker: what it breaks down with becomes an error. -/
def perform {α : Type} (job : Except Text α) : Except Text α := job

/-- Takes in the new text of a document. -/
def update (env : Environment) (uri text : Text) (s : Server) : Publication × Server :=
  let a := analyze env (Uri.path uri) text
  (⟨uri, noticesOf a text⟩, { s with documents := s.documents.set uri (text, a) })

/-- The word at a position of an open document, and what is known of the document. -/
def wordIn? (s : Server) (word : Text → Position → Text) (uri : Text) (pos : Position) :
    Option (Text × Text × Analysis) := do
  let (text, a) ← s.documents.get? uri
  let w := word text pos
  guard !w.isEmpty
  return (w, text, a)

/-- The declaration that the word at a position means. -/
def declarationAt? (s : Server) (uri : Text) (pos : Position) :
    Option (Analysis × Declaration) := do
  let (word, _, a) ← s.wordIn? wordAt uri pos
  let d ← a.lookup? word (pos.line + 1)
  return (a, d)

/-- Answers a question about an open document. -/
def query (s : Server) : Request → Response
  | .completion uri pos =>
    match s.wordIn? wordBefore uri pos with
    | none => .nothing
    | some (word, _, a) =>
      let items := completions a word (pos.line + 1)
      if items.isEmpty then .nothing else .items items
  | .hover uri pos =>
    match s.declarationAt? uri pos with
    | none => .nothing
    | some (_, d) => .hover (hoverText d)
  | .definition uri pos =>
    match s.declarationAt? uri pos with
    | none => .nothing
    | some (a, d) =>
      let target := if d.file == a.path then uri else "file://" ++ d.file
      .locations [⟨target, lineRange d.line 0 0⟩]
  | .references uri pos =>
    match s.wordIn? wordAt uri pos with
    | none => .nothing
    | some (word, text, _) =>
      let found := (Editor.references text word).map fun (line, column) =>
        (⟨uri, lineRange line column (column + word.length)⟩ : Location)
      if found.isEmpty then .nothing else .locations found
  | _ => .nothing

/-- Handles a request: what is answered, what is published, and the server afterwards. -/
def handle (env : Environment) (s : Server) (r : Request) :
    Except ServerError (Response × Option Publication) × Server :=
  match r with
  | .introduce => (.ok (.capabilities s.version, none), { s with introduced := true })
  | r =>
    if !s.introduced then (.error .notIntroduced, s)
    else match r with
      | .leave =>
        (if s.stopped then .error .stoppedTwice else .ok (.nothing, none),
          { s with introduced := false, stopped := true })
      | .didOpen uri text =>
        let (published, s) := s.update env uri text
        (.ok (.nothing, some published), s)
      | .didChange uri (some text) =>
        let (published, s) := s.update env uri text
        (.ok (.nothing, some published), s)
      | .didClose uri =>
        (.ok (.nothing, some ⟨uri, []⟩), { s with documents := s.documents.erase uri })
      | r => (.ok (s.query r, none), s)

end Server

end TickScript.Editor
