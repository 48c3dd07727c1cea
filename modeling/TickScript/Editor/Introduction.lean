import TickScript.Editor.Shape

/-!
# How a client introduces itself

The parameters of an introduction tell who the client is, what it is working on and what it can do.
The server makes no use of them, but refuses an introduction in which any of them has the wrong
shape.
-/

namespace TickScript.Editor.Introduction

open Shape

/-- The field that says whether a capability can be registered later. -/
def dynamic : Text × Shape := ("dynamicRegistration", bool)

/-- A capability without details. -/
def plain : Shape := object [dynamic]

/-- The ability to follow a word to another place. -/
def linking : Shape := object [dynamic, ("linkSupport", bool)]

/-- The ability to fill in properties later. -/
def resolving : Shape := object [("properties", list text)]

/-- The ability to have its views refreshed. -/
def refreshing : Shape := object [("refreshSupport", bool)]

/-- What a client can do with a workspace. -/
def workspace : Shape := object (flags ["applyEdit", "workspaceFolders", "configuration"]
  [("workspaceEdit", object (flags ["documentChanges", "normalizesLineEndings"]
      [("resourceOperations", list text), ("failureHandling", text),
       ("changeAnnotationSupport", object [("groupsOnLabel", bool)])])),
   ("didChangeConfiguration", plain),
   ("didChangeWatchedFiles", plain),
   ("symbol", object [dynamic, ("symbolKind", valueSet int), ("tagSupport", valueSet int)]),
   ("executeCommand", plain),
   ("semanticTokens", refreshing),
   ("codeLens", refreshing),
   ("fileOperations", object (dynamic :: flags ["didCreate", "willCreate", "didRename",
      "willRename", "didDelete", "willDelete"] []))])

/-- What a client can do with completions. -/
def completion : Shape := object
  [dynamic,
   ("completionItem", object (flags ["snippetSupport", "commitCharactersSupport",
        "deprecatedSupport", "preselectSupport", "insertReplaceSupport"]
      [("documentationFormat", list text), ("tagSupport", valueSet int),
       ("resolveSupport", resolving), ("insertTextModeSupport", valueSet int)])),
   ("completionItemKind", valueSet int),
   ("contextSupport", bool)]

/-- What a client can show of the signature of a call. -/
def signatureHelp : Shape := object
  [dynamic,
   ("signatureInformation", object
      [("documentationFormat", list text),
       ("parameterInformation", object [("labelOffsetSupport", bool)]),
       ("activeParameterSupport", bool)]),
   ("contextSupport", bool)]

/-- What a client can do with proposed changes. -/
def codeAction : Shape := object (dynamic :: flags ["isPreferredSupport", "disabledSupport",
    "dataSupport", "honorsChangeAnnotations"]
  [("codeActionLiteralSupport", object [("codeActionKind", valueSet text)]),
   ("resolveSupport", resolving)])

/-- What a client can do with classified words. -/
def semanticTokens : Shape := object (dynamic :: flags ["overlappingTokenSupport",
    "multilineTokenSupport"]
  [("requests", object
      [("range", either bool (object [])), ("full", either bool (object [("delta", bool)]))]),
   ("tokenTypes", list text),
   ("tokenModifiers", list text),
   ("formats", list text)])

/-- What a client can do with one document. -/
def textDocument : Shape := object
  [("synchronization", object (dynamic :: flags ["willSave", "willSaveWaitUntil", "didSave"] [])),
   ("completion", completion),
   ("hover", object [dynamic, ("contentFormat", list text)]),
   ("signatureHelp", signatureHelp),
   ("declaration", linking),
   ("definition", linking),
   ("typeDefinition", linking),
   ("implementation", linking),
   ("references", plain),
   ("documentHighlight", plain),
   ("documentSymbol", object [dynamic, ("symbolKind", valueSet int),
      ("hierarchicalDocumentSymbolSupport", bool), ("tagSupport", valueSet int),
      ("labelSupport", bool)]),
   ("codeAction", codeAction),
   ("codeLens", plain),
   ("documentLink", object [dynamic, ("tooltipSupport", bool)]),
   ("colorProvider", plain),
   ("formatting", plain),
   ("rangeFormatting", plain),
   ("onTypeFormatting", plain),
   ("rename", object [dynamic, ("prepareSupport", bool), ("prepareSupportDefaultBehavior", int),
      ("honorsChangeAnnotations", bool)]),
   ("publishDiagnostics", object (flags ["relatedInformation", "versionSupport",
        "codeDescriptionSupport", "dataSupport"] [("tagSupport", valueSet int)])),
   ("foldingRange", object [dynamic, ("rangeLimit", word), ("lineFoldingOnly", bool)]),
   ("selectionRange", plain),
   ("linkedEditingRange", plain),
   ("callHierarchy", plain),
   ("semanticTokens", semanticTokens),
   ("moniker", plain)]

/-- What a client can do with its windows. -/
def window : Shape := object
  [("workDoneProgress", bool),
   ("showMessage", object [("messageActionItem", object [("additionalPropertiesSupport", bool)])]),
   ("showDocument", object [("support", bool)])]

/-- What else a client knows. -/
def general : Shape := object
  [("regularExpressions", object [("engine", text), ("version", text)]),
   ("markdown", object [("parser", text), ("version", text)])]

/-- The parameters of an introduction. -/
def shape : Shape := object
  [("workDoneToken", token),
   ("processId", int),
   ("clientInfo", object [("name", text), ("version", text)]),
   ("locale", text),
   ("rootPath", text),
   ("rootUri", text),
   ("initializationOptions", any),
   ("capabilities", object
      [("workspace", workspace), ("textDocument", textDocument), ("window", window),
       ("general", general), ("experimental", any)]),
   ("trace", text),
   ("workspaceFolders", list (object [("uri", text), ("name", text)]))]

end TickScript.Editor.Introduction
