import TemplateAnalysis.Server.Message
import TemplateAnalysis.Server.Request
import TemplateAnalysis.Server.Wire

namespace TemplateAnalysis.Server

/-- What a client gets for a request. -/
inductive Answer
  | nothing
  | hover (hover : Cursor.Hover)
  | completions (items : List Cursor.Completion)
  | places (found : List (String × Range))
  | symbols (identifiers : List Identifier)
  | creation (uri : String)
  deriving DecidableEq, Inhabited

/-- How an answer is written. -/
def Answer.toJson : Answer → Json
  | nothing => .null
  | hover value => Wire.hover value
  | completions items => .array (items.map Wire.completion)
  | places found => .array (found.map fun (uri, range) => Wire.place uri range)
  | symbols identifiers => .array (identifiers.map Wire.symbol)
  | creation uri => .array [Wire.creation uri]

/-- What a server sends: the answer to a request, the refusal of one, or the undefined variables of
    a template, which take the place of those that were sent before. -/
inductive Reply
  | result (id : MessageId) (answer : Answer)
  | refusal (id : MessageId) (error : RequestError)
  | diagnostics (uri : String) (identifiers : List Identifier)
  deriving DecidableEq, Inhabited

/-- How a reply is written. -/
def Reply.toJson : Reply → Json
  | result id answer => .object [("id", id.toJson), ("result", answer.toJson)]
  | refusal id error =>
    let cause := Json.object [("code", .integer error.code), ("message", .string error.message)]
    .object [("id", id.toJson), ("error", cause)]
  | diagnostics uri identifiers =>
    let params := Json.object
      [("uri", .string uri), ("diagnostics", .array (identifiers.map Wire.diagnostic))]
    .object [("method", .string "textDocument/publishDiagnostics"), ("params", params)]

end TemplateAnalysis.Server
