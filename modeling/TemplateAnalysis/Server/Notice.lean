import TemplateAnalysis.Server.Params

namespace TemplateAnalysis.Server

/-- What a client tells without asking for anything: the text of a document, the files that are no
    longer there, or something that changes nothing. -/
inductive Notice
  | written (uri text : String)
  | removed (uris : List String)
  | ignored
  deriving DecidableEq, Inhabited

namespace Notice

open Params

/-- The parameters of the message that a document has been opened. -/
def opened? (params : Json) : Option Notice := do
  let params ← record? ["textDocument"] params
  let (uri, text) ← field? openedDocument? "textDocument" params
  return .written uri text

/-- The parameters of the message that a document has been edited. Each change gives the whole text,
    so the last one counts. -/
def changed? (params : Json) : Option Notice := do
  let params ← record? ["textDocument", "contentChanges"] params
  let uri ← field? versionedDocument? "textDocument" params
  let texts ← field? (Json.arrayOf? change?) "contentChanges" params
  return (texts.getLast?.map (written uri)).getD ignored

/-- The number that stands for the removal of a file. -/
def removal : Int := 3

/-- The parameters of the message that files have changed. Only removals count. -/
def filesChanged? (params : Json) : Option Notice := do
  let params ← record? ["changes"] params
  let changes ← field? (Json.arrayOf? fileEvent?) "changes" params
  return .removed ((changes.filter (·.2 == removal)).map (·.1))

/-- The notice that a method and its parameters denote. The parameters of other methods are not
    looked at. -/
def ofParams? (method : String) (params : Json) : Option Notice :=
  match method with
  | "textDocument/didOpen" => opened? params
  | "textDocument/didChange" => changed? params
  | "workspace/didChangeWatchedFiles" => filesChanged? params
  | _ => some .ignored

end Notice

end TemplateAnalysis.Server
