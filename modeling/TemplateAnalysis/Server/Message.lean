import TemplateAnalysis.Json

namespace TemplateAnalysis.Server

/-- The mark by which a client finds the answer to a request. -/
inductive MessageId
  | number (value : Int)
  | text (value : String)
  deriving DecidableEq, Inhabited

namespace MessageId

/-- The mark that a value denotes. -/
def ofJson? : Json → Option MessageId
  | .string value => some (text value)
  | value => value.int32?.map number

/-- How the mark is written. -/
def toJson : MessageId → Json
  | number value => .integer value
  | text value => .string value

end MessageId

/-- What a client sends. A request wants an answer; a notification does not. -/
inductive Message
  | request (id : MessageId) (method : String) (params : Json)
  | notification (method : String) (params : Json)
  | response
  deriving Inhabited

/-- The message that a value denotes. Without a method it answers a request of the server, and
    without a mark it wants no answer. Absent parameters are the same as null. -/
def Message.ofJson? (value : Json) : Option Message :=
  let id := (value.field? "id").bind MessageId.ofJson?
  let method := (value.field? "method").bind Json.string?
  let params := (value.field? "params").getD .null
  match id, method with
  | some id, some method => some (.request id method params)
  | none, some method => some (.notification method params)
  | some _, none => some .response
  | none, none => none

end TemplateAnalysis.Server
