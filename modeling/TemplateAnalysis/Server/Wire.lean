import TemplateAnalysis.Cursor.Completion
import TemplateAnalysis.Cursor.Hover
import TemplateAnalysis.Json

namespace TemplateAnalysis.Server.Wire

/-- A field of an object that is left out if it has no value. -/
def optionalField {α : Type} (name : String) (write : α → Json) (value : Option α) :
    List (String × Json) :=
  value.toList.map fun value => (name, write value)

/-- How a position is written. -/
def position (position : Position) : Json :=
  .object [("line", .integer position.line), ("character", .integer position.character)]

/-- How a range is written. -/
def range (range : Range) : Json :=
  .object [("start", position range.start), ("end", position range.stop)]

/-- The number of an icon among completions. -/
def completionNumber : CompletionKind → Nat
  | .text => 1
  | .function => 3
  | .field => 5
  | .variable => 6
  | .module => 9
  | .file => 17
  | .constant => 21

/-- The number of the icon of snippets. -/
def snippetNumber : Nat := 15

/-- The number of the icon of a kind in the summary of a document. -/
def symbolNumber : IdentifierKind → Nat
  | .templateRef => 1
  | .templateBlock => 2
  | .forLoopCount | .macroParameter => 8
  | .macroName => 12
  | .forLoopKey | .forLoopValue | .setVariable | .withVariable | .hostVariable => 13
  | .undefinedVariable => 14
  | .link => 15

/-- How a hover is written. Clients do not know its label. -/
def hover (hover : Cursor.Hover) : Json :=
  .object <|
    ("contents", .object [("kind", .string "markdown"), ("value", .string hover.value)]) ::
      optionalField "range" range hover.range

/-- How an edit that puts a text in the place of a range is written. -/
def textEdit (replaced : Range) (text : String) : Json :=
  .object [("range", range replaced), ("newText", .string text)]

/-- How a completion is written. The text of a snippet has fields that the client fills in. -/
def completion (item : Cursor.Completion) : Json :=
  let isSnippet := item.type == .snippet
  let kind := if isSnippet then snippetNumber else completionNumber item.kind
  let format : Option Int := if isSnippet then some 2 else none
  .object <|
    [("label", .string item.label), ("kind", .integer kind),
      ("detail", .string item.description)] ++
    optionalField "textEdit" (textEdit · (item.newText.getD item.label))
      (item.replaceRange.or item.insertRange) ++
    optionalField "insertTextFormat" .integer format

/-- How a place in a document is written. -/
def place (uri : String) (placed : Range) : Json :=
  .object [("uri", .string uri), ("range", range placed)]

/-- How an identifier is written in the summary of a document. -/
def symbol (identifier : Identifier) : Json :=
  .object [("name", .string identifier.name), ("detail", .string identifier.kind.detail),
    ("kind", .integer (symbolNumber identifier.kind)), ("range", range identifier.range),
    ("selectionRange", range identifier.range)]

/-- How the action is written that creates a template unless it exists. -/
def creation (uri : String) : Json :=
  let options := Json.object [("overwrite", .bool false), ("ignoreIfExists", .bool true)]
  let change :=
    Json.object [("kind", .string "create"), ("uri", .string uri), ("options", options)]
  .object [("title", .string "Generate new template"), ("kind", .string "quickfix"),
    ("edit", .object [("documentChanges", .array [change])])]

/-- How an undefined variable is written among the diagnostics of a document. It is a warning. -/
def diagnostic (identifier : Identifier) : Json :=
  .object [("range", range identifier.range), ("severity", .integer 2),
    ("source", .string "jinja-lens"),
    ("message", .string (identifier.error.getD "undefined variable"))]

end TemplateAnalysis.Server.Wire
