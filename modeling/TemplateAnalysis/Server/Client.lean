import TemplateAnalysis.Server.Shape

namespace TemplateAnalysis.Server.Client

open Member Shape

/-- A field that tells whether a client is able to do something. -/
def ability (name : String) : Member := optional name flag

/-- Whether a server may offer a feature after the session has begun. -/
def registration : Member := ability "dynamicRegistration"

/-- A feature about which nothing more can be told. -/
def feature : Shape := record [registration]

/-- A feature whose results a server may declare to be out of date. -/
def refreshable : Shape := record [ability "refreshSupport"]

/-- A choice among several things by their numbers. -/
def choices : Shape := record [optional "valueSet" (list integer)]

/-- The properties that a client can ask for later. -/
def lazyProperties : Shape := record [required "properties" (list text)]

/-- The marks that a client can show. Instead of naming them, it may tell only whether it shows
    any. -/
def marks : Member :=
  let shape : Shape := fun value => flag value || record [required "valueSet" (list integer)] value
  { optional "tagSupport" shape with mayBeCut := true }

/-- The ways in which texts for the reader may be written. -/
def formats (name : String) : Member :=
  optional name (list (word ["plaintext", "markdown"]))

/-! ### The workspace -/

/-- What a client can do with edits of several documents. -/
def workspaceEdit : Shape :=
  record [ability "documentChanges",
    optional "resourceOperations" (list (word ["create", "rename", "delete"])),
    optional "failureHandling"
      (word ["abort", "transactional", "textOnlyTransactional", "undo"]),
    ability "normalizesLineEndings",
    optional "changeAnnotationSupport" (record [ability "groupsOnLabel"])]

/-- How a client watches files. -/
def watchedFiles : Shape := record [registration, ability "relativePatternSupport"]

/-- How a client shows symbols of the workspace. -/
def workspaceSymbol : Shape :=
  record [registration, optional "symbolKind" choices, marks,
    optional "resolveSupport" lazyProperties]

/-- The operations on files of which a client tells a server. -/
def fileOperations : Shape :=
  record [registration, ability "didCreate", ability "willCreate", ability "didRename",
    ability "willRename", ability "didDelete", ability "willDelete"]

/-- What a client can do with the workspace. -/
def workspace : Shape :=
  record [ability "applyEdit", optional "workspaceEdit" workspaceEdit,
    optional "didChangeConfiguration" feature, optional "didChangeWatchedFiles" watchedFiles,
    optional "symbol" workspaceSymbol, optional "executeCommand" feature,
    ability "workspaceFolders", ability "configuration", optional "semanticTokens" refreshable,
    optional "codeLens" refreshable, optional "fileOperations" fileOperations,
    optional "inlineValue" refreshable, optional "inlayHint" refreshable,
    optional "diagnostic" refreshable]

/-! ### Documents -/

/-- The moments at which a client tells a server of a document. -/
def synchronization : Shape :=
  record [registration, ability "willSave", ability "willSaveWaitUntil", ability "didSave"]

/-- What a client can do with an item of completion. -/
def completionItem : Shape :=
  record [ability "snippetSupport", ability "commitCharactersSupport",
    formats "documentationFormat", ability "deprecatedSupport", ability "preselectSupport", marks,
    ability "insertReplaceSupport", optional "resolveSupport" lazyProperties,
    optional "insertTextModeSupport" (record [required "valueSet" (list integer)]),
    ability "labelDetailsSupport"]

/-- What a client can do with completions. -/
def completion : Shape :=
  record [registration, optional "completionItem" completionItem,
    optional "completionItemKind" choices, ability "contextSupport",
    optional "insertTextMode" integer,
    optional "completionList" (record [optional "itemDefaults" (list text)])]

/-- What a client can do with hovers. -/
def hover : Shape := record [registration, formats "contentFormat"]

/-- What a client can do with signatures. -/
def signatureHelp : Shape :=
  let information := record [formats "documentationFormat",
    optional "parameterInformation" (record [ability "labelOffsetSupport"]),
    ability "activeParameterSupport"]
  record [registration, optional "signatureInformation" information, ability "contextSupport"]

/-- How a client shows the symbols of a document. -/
def documentSymbol : Shape :=
  record [registration, optional "symbolKind" choices,
    ability "hierarchicalDocumentSymbolSupport", marks]

/-- How a client goes to another place. -/
def destination : Shape := record [registration, ability "linkSupport"]

/-- What a client can do with actions. -/
def codeAction : Shape :=
  let kinds := record [required "valueSet" (list text)]
  record [registration,
    optional "codeActionLiteralSupport" (record [required "codeActionKind" kinds]),
    ability "isPreferredSupport", ability "disabledSupport", ability "dataSupport",
    optional "resolveSupport" lazyProperties, ability "honorsChangeAnnotations"]

/-- What a client can do with links. -/
def documentLink : Shape := record [registration, ability "tooltipSupport"]

/-- What a client can do with new names. -/
def rename : Shape :=
  record [registration, ability "prepareSupport",
    optional "prepareSupportDefaultBehavior" integer, ability "honorsChangeAnnotations"]

/-- What a client can do with the diagnostics that it is sent. -/
def publishDiagnostics : Shape :=
  record [ability "relatedInformation", marks, ability "versionSupport",
    ability "codeDescriptionSupport", ability "dataSupport"]

/-- What a client can do with ranges that fold. -/
def foldingRange : Shape :=
  let kinds := record [optional "valueSet" (list (word ["comment", "imports", "region"]))]
  record [registration, optional "rangeLimit" natural, ability "lineFoldingOnly",
    optional "foldingRangeKind" kinds,
    optional "foldingRange" (record [ability "collapsedText"])]

/-- What a client can do with the meanings of words. -/
def semanticTokens : Shape :=
  let full : Shape := fun value => flag value || named [ability "delta"] value
  record [registration, required "requests" (record [ability "range", optional "full" full]),
    required "tokenTypes" (list text), required "tokenModifiers" (list text),
    required "formats" (list text), ability "overlappingTokenSupport",
    ability "multilineTokenSupport", ability "serverCancelSupport",
    ability "augmentsSyntaxTokens"]

/-- What a client can do with hints within a line. -/
def inlayHint : Shape := record [registration, optional "resolveSupport" lazyProperties]

/-- What a client can do with the diagnostics that it asks for. -/
def diagnostic : Shape := record [registration, ability "relatedDocumentSupport"]

/-- What a client can do with a document. -/
def textDocument : Shape :=
  record [optional "synchronization" synchronization, optional "completion" completion,
    optional "hover" hover, optional "signatureHelp" signatureHelp, optional "references" feature,
    optional "documentHighlight" feature, optional "documentSymbol" documentSymbol,
    optional "formatting" feature, optional "rangeFormatting" feature,
    optional "onTypeFormatting" feature, optional "declaration" destination,
    optional "definition" destination, optional "typeDefinition" destination,
    optional "implementation" destination, optional "codeAction" codeAction,
    optional "codeLens" feature, optional "documentLink" documentLink,
    optional "colorProvider" feature, optional "rename" rename,
    optional "publishDiagnostics" publishDiagnostics, optional "foldingRange" foldingRange,
    optional "selectionRange" feature, optional "linkedEditingRange" feature,
    optional "callHierarchy" feature, optional "semanticTokens" semanticTokens,
    optional "moniker" feature, optional "typeHierarchy" feature, optional "inlineValue" feature,
    optional "inlayHint" inlayHint, optional "diagnostic" diagnostic]

/-- What a client can do with a notebook. -/
def notebookDocument : Shape :=
  record [required "synchronization" (record [registration, ability "executionSummaryReport"])]

/-! ### The rest -/

/-- What a client can do with its window. -/
def window : Shape :=
  let action := record [ability "additionalPropertiesSupport"]
  record [ability "workDoneProgress",
    optional "showMessage" (record [optional "messageActionItem" action]),
    optional "showDocument" (record [required "support" flag])]

/-- What holds for all features of a client. -/
def general : Shape :=
  record [
    optional "regularExpressions" (record [required "engine" text, optional "version" text]),
    optional "markdown"
      (record [required "parser" text, optional "version" text,
        optional "allowedTags" (list text)]),
    optional "staleRequestSupport"
      (record [required "cancel" flag, required "retryOnContentModified" (list text)]),
    optional "positionEncodings" (list text)]

/-- What a client can do. -/
def capabilities : Shape :=
  record [optional "workspace" workspace, optional "textDocument" textDocument,
    optional "notebookDocument" notebookDocument, optional "window" window,
    optional "general" general, optional "experimental" anything]

/-- What a client tells about itself at the beginning of a session. Only what it can do must be
    told, but all else must have its shape. -/
def description : Shape :=
  named [optional "processId" natural, optional "rootPath" text, optional "rootUri" address,
    optional "initializationOptions" anything, required "capabilities" capabilities,
    optional "trace" (word ["off", "messages", "verbose"]),
    optional "workspaceFolders" (list (record [required "uri" address, required "name" text])),
    optional "clientInfo" (record [required "name" text, optional "version" text]),
    optional "locale" text, optional "workDoneToken" tag]

end TemplateAnalysis.Server.Client
