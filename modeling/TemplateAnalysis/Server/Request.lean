import TemplateAnalysis.Server.Context
import TemplateAnalysis.Server.Params

namespace TemplateAnalysis.Server

/-- What a client can ask for. -/
inductive Request
  | hover (uri : String) (position : Position)
  | completion (uri : String) (position : Position)
  | declarations (uri : String) (position : Position)
  | symbols (uri : String)
  | actions (uri : String) (range : Range)
  deriving DecidableEq, Inhabited

/-- Why a request cannot be understood. -/
inductive RequestError
  | malformedParams
  | unknownMethod (method : String)
  deriving DecidableEq, Inhabited

namespace RequestError

/-- The number of the error. -/
def code : RequestError → Int
  | malformedParams => -32602
  | unknownMethod _ => -32601

/-- How the error is told. That parameters are malformed stands for the text in which a reader of JSON
    says what is wrong with them, which is no part of this library. -/
def message : RequestError → String
  | malformedParams => "malformed parameters"
  | unknownMethod method => "unsupported method " ++ method

end RequestError

namespace Request

open Params

/-- Parameters are given by name. -/
def named? : Json → Option Json
  | .object fields => some (.object fields)
  | _ => none

/-- The address and the position for which something is asked. -/
def place? (params : Json) : Option (String × Position) := do
  let params ← named? params
  return (← field? document? "textDocument" params, ← field? position? "position" params)

/-- The parameters of a request for a hover. -/
def hover? (params : Json) : Option Request := do
  let (uri, position) ← place? params
  guard (Context.single params)
  return .hover uri position

/-- The parameters of a request for completions. -/
def completion? (params : Json) : Option Request := do
  let (uri, position) ← place? params
  guard (Context.several params && Context.completion params)
  return .completion uri position

/-- The parameters of a request for declarations. -/
def declarations? (params : Json) : Option Request := do
  let (uri, position) ← place? params
  guard (Context.several params)
  return .declarations uri position

/-- The parameters of a request for a summary. -/
def symbols? (params : Json) : Option Request := do
  let params ← named? params
  guard (Context.several params)
  return .symbols (← field? document? "textDocument" params)

/-- The parameters of a request for actions. -/
def actions? (params : Json) : Option Request := do
  let params ← named? params
  guard (Context.several params && Context.action params)
  return .actions (← field? document? "textDocument" params) (← field? range? "range" params)

/-- How the parameters of a method are read, if the method is known. -/
def reader? : String → Option (Json → Option Request)
  | "textDocument/hover" => some hover?
  | "textDocument/completion" => some completion?
  | "textDocument/definition" => some declarations?
  | "textDocument/documentSymbol" => some symbols?
  | "textDocument/codeAction" => some actions?
  | _ => none

/-- The request that a method and its parameters denote. -/
def ofParams (method : String) (params : Json) : Except RequestError Request :=
  match reader? method with
  | none => .error (.unknownMethod method)
  | some read =>
    match read params with
    | some request => .ok request
    | none => .error .malformedParams

end Request

end TemplateAnalysis.Server
