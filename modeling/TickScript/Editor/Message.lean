import TickScript.Editor.Introduction
import TickScript.Editor.Server

/-!
# Messages between editor and server

A message has a method and parameters. `Server.receive` reads it as a request, has the server handle
it and gives the answer, whose parts are written as structured values. Which of the possible
refusals is given follows one order: a server that nobody has introduced itself to refuses every
other message, then an unknown method is refused, then parameters that do not fit the method.
-/

namespace TickScript.Editor

/-! ## Reading -/

/-- The methods that the server knows. -/
inductive Method where
  | introduce
  | ready
  | leave
  | setTrace
  | didOpen
  | didChange
  | didClose
  | completion
  | hover
  | definition
  | references
deriving DecidableEq, Repr

namespace Method

/-- The name of a method. -/
def name : Method → Text
  | introduce => "initialize"
  | ready => "initialized"
  | leave => "shutdown"
  | setTrace => "$/setTrace"
  | didOpen => "textDocument/didOpen"
  | didChange => "textDocument/didChange"
  | didClose => "textDocument/didClose"
  | completion => "textDocument/completion"
  | hover => "textDocument/hover"
  | definition => "textDocument/definition"
  | references => "textDocument/references"

/-- Every method. -/
def all : List Method :=
  [introduce, ready, leave, setTrace, didOpen, didChange, didClose, completion, hover, definition,
    references]

/-- The method of a name. -/
def ofName? (t : Text) : Option Method := all.find? fun m => m.name == t

theorem mem_all (m : Method) : m ∈ all := by cases m <;> simp [all]

end Method

namespace Shape

/-- A place in a document. -/
def position : Shape := object [("line", word), ("character", word)]

/-- A document, by its address. -/
def document : Shape := object [("uri", text)]

/-- One change of a document. -/
def change : Shape := object
  [("range", object [("start", position), ("end", position)]), ("rangeLength", word),
   ("text", text)]

/-- A question about a place in a document, with further fields. -/
def question (others : List (Text × Shape)) : Shape := object
  (("textDocument", document) :: ("position", position) :: ("workDoneToken", token) :: others)

/-- The field with what a client calls the partial results of a question. -/
def partialToken : Text × Shape := ("partialResultToken", token)

end Shape

namespace Method

open Shape

/-- The shape of the parameters of a method. -/
def shape : Method → Shape
  | introduce => Introduction.shape
  | ready => object []
  | leave => any
  | setTrace => object [("value", text)]
  | didOpen => object [("textDocument",
      object [("uri", text), ("languageId", text), ("version", int), ("text", text)])]
  | didChange => object
      [("textDocument", object [("uri", text), ("version", int)]), ("contentChanges", list any)]
  | didClose => object [("textDocument", document)]
  | completion => question [partialToken,
      ("context", object [("triggerKind", int), ("triggerCharacter", text)])]
  | hover => question []
  | definition => question [partialToken]
  | references => question [partialToken, ("context", object [("includeDeclaration", bool)])]

end Method

/-- A member of the document that the parameters are about. -/
def documentText (params : Json) (name : Text) : Text :=
  Json.lastText (Json.values name (Json.values "textDocument" [params]))

/-- The place that the parameters are about. -/
def positionOf (params : Json) : Position :=
  let places := Json.values "position" [params]
  ⟨Json.lastNat (Json.values "line" places), Json.lastNat (Json.values "character" places)⟩

/-- The changes of a document. -/
def changesOf (params : Json) : List Json := Json.lastItems (Json.values "contentChanges" [params])

/-- Whether parameters fit a method. Of changes that are given several times the last ones count. -/
def Method.accepts (m : Method) (params : Json) : Bool :=
  m.shape.fits params && (m != .didChange || (changesOf params).all Shape.change.fits)

/-- The text that one change gives the whole document; none when it changes only a range. -/
def wholeText? (change : Json) : Option Text :=
  if Json.lastGiven (Json.values "range" [change]) then none
  else some (Json.lastText (Json.values "text" [change]))

/-- The request that a method makes with parameters that fit it. -/
def Request.ofParams (params : Json) : Method → Request
  | .introduce => .introduce
  | .ready => .ready
  | .leave => .leave
  | .setTrace => .setTrace
  | .didOpen => .didOpen (documentText params "uri") (documentText params "text")
  | .didChange =>
    .didChange (documentText params "uri") ((changesOf params).getLast?.bind wholeText?)
  | .didClose => .didClose (documentText params "uri")
  | .completion => .completion (documentText params "uri") (positionOf params)
  | .hover => .hover (documentText params "uri") (positionOf params)
  | .definition => .definition (documentText params "uri") (positionOf params)
  | .references => .references (documentText params "uri") (positionOf params)

/-- The request of a message, which may come without parameters only to take leave. -/
def Request.ofMessage? (m : Method) (params? : Option Json) : Option Request :=
  match m, params? with
  | .leave, _ => some .leave
  | m, some params => if m.accepts params then some (ofParams params m) else none
  | _, none => none

/-! ## Writing -/

/-- The name that the server goes by. -/
def serverName : Text := "barlsp"

/-- A place as a message. -/
def Position.toJson (p : Position) : Json :=
  .object [("line", .nat p.line), ("character", .nat p.character)]

/-- A stretch as a message. -/
def Range.toJson (r : Range) : Json := .object [("start", r.start.toJson), ("end", r.stop.toJson)]

/-- The number that stands for a kind of completion. -/
def ItemKind.code : ItemKind → Nat
  | keyword => 14
  | function => 3
  | field => 5
  | variable_ => 6

/-- A completion as a message. -/
def CompletionItem.toJson (i : CompletionItem) : Json :=
  let detail : List (Text × Json) :=
    (i.detail?.map fun t => (("detail" : Text), Json.sent t)).toList
  .object (("label", .sent i.label) :: ("kind", .nat i.kind.code) :: ("insertText", .sent i.label)
    :: detail)

/-- What the server can do. -/
def capabilities : Json :=
  .object [("completionProvider", .object []), ("definitionProvider", .bool true),
    ("hoverProvider", .bool true), ("referencesProvider", .bool true),
    ("textDocumentSync", .object [("change", .nat 1), ("openClose", .bool true)])]

/-- A response as a message. -/
def Response.toJson : Response → Json
  | nothing => .null
  | capabilities version =>
    .object [("capabilities", Editor.capabilities),
      ("serverInfo", .object [("name", .sent serverName), ("version", .sent version)])]
  | items is => .list (is.map CompletionItem.toJson)
  | hover markdown =>
    .object [("contents", .object [("kind", .sent "markdown"), ("value", .sent markdown)])]
  | locations ls =>
    .list (ls.map fun l => .object [("uri", .sent l.uri), ("range", l.range.toJson)])

/-- A diagnostic as a message; all of them are errors. -/
def Notice.toJson (n : Notice) : Json :=
  .object [("range", n.range.toJson), ("severity", .nat 1), ("source", .sent serverName),
    ("message", .sent n.message)]

/-- The message that publishes the diagnostics of a document. -/
def Publication.toJson (p : Publication) : Json :=
  .object [("method", .sent "textDocument/publishDiagnostics"),
    ("params", .object [("uri", .sent p.uri),
      ("diagnostics", .list (p.notices.map Notice.toJson))])]

/-! ## Handling -/

/-- What becomes of a message. -/
inductive Reply where
  | unknownMethod
  /-- The parameters do not fit the method. -/
  | unfit
  | refused (error : ServerError)
  | answered (response : Response) (published? : Option Publication)
deriving DecidableEq, Repr

/-- Handles a message, and gives the server afterwards. -/
def Server.receive (env : Environment) (s : Server) (method : Text) (params? : Option Json) :
    Reply × Server :=
  let known? := Method.ofName? method
  if !s.introduced && known? != some .introduce then (.refused .notIntroduced, s)
  else match known? with
    | none => (.unknownMethod, s)
    | some m =>
      match Request.ofMessage? m params? with
      | none => (.unfit, s)
      | some r =>
        match s.handle env r with
        | (.error e, s) => (.refused e, s)
        | (.ok (response, published?), s) => (.answered response published?, s)

end TickScript.Editor
