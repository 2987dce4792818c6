import TemplateAnalysis.Json
import TemplateAnalysis.Position
import TemplateAnalysis.Uri

namespace TemplateAnalysis.Server.Params

/-- A record with the given fields. A client may leave out the names if it gives all fields in
    order. -/
def record? (names : List String) : Json → Option Json
  | .object fields => some (.object fields)
  | .array items =>
    if items.length = names.length then some (.object (names.zip items)) else none
  | _ => none

/-- A field that must be there. -/
def field? {α : Type} (read : Json → Option α) (name : String) (params : Json) : Option α :=
  (params.field? name).bind read

/-- A field that may be absent or null. -/
def optionalField? {α : Type} (read : Json → Option α) (name : String) (params : Json) :
    Option (Option α) :=
  Json.optional? read (params.field? name)

/-- The address of a document. -/
def uri? (value : Json) : Option String :=
  value.string?.filter Uri.isReference

/-- A position. -/
def position? (value : Json) : Option Position := do
  let value ← record? ["line", "character"] value
  return { line := ← field? Json.nat32? "line" value
           character := ← field? Json.nat32? "character" value }

/-- A range. -/
def range? (value : Json) : Option Range := do
  let value ← record? ["start", "end"] value
  return { start := ← field? position? "start" value, stop := ← field? position? "end" value }

/-- A document that is known by its address. -/
def document? (value : Json) : Option String := do
  let value ← record? ["uri"] value
  field? uri? "uri" value

/-- A document together with its text. -/
def openedDocument? (value : Json) : Option (String × String) := do
  let value ← record? ["uri", "languageId", "version", "text"] value
  let uri ← field? uri? "uri" value
  let _ ← field? Json.string? "languageId" value
  let _ ← field? Json.int32? "version" value
  return (uri, ← field? Json.string? "text" value)

/-- A document in one of its versions. -/
def versionedDocument? (value : Json) : Option String := do
  let value ← record? ["uri", "version"] value
  let _ ← field? Json.int32? "version" value
  field? uri? "uri" value

/-- A change of a text. Whatever part it names, its text stands for the whole document. -/
def change? (value : Json) : Option String := do
  let value ← record? ["range", "rangeLength", "text"] value
  let _ ← optionalField? range? "range" value
  let _ ← optionalField? Json.nat32? "rangeLength" value
  field? Json.string? "text" value

/-- A file that has changed, with the number of what happened to it. -/
def fileEvent? (value : Json) : Option (String × Int) := do
  let value ← record? ["uri", "type"] value
  return (← field? uri? "uri" value, ← field? Json.int32? "type" value)

end TemplateAnalysis.Server.Params
