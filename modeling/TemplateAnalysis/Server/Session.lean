import TemplateAnalysis.Server.Client
import TemplateAnalysis.Server.State

namespace TemplateAnalysis.Server

/-- How a session ends: the client has no more messages or asks for the end, or it sends something
    that the server cannot go on after. -/
inductive Ending
  | finished
  | failed
  deriving DecidableEq, Inhabited

/-- A whole session: what the server has sent, in order, and how it ended. -/
structure Session where
  replies : List Reply
  ending : Ending
  deriving DecidableEq, Inhabited

namespace Session

/-- The session in which something else has been sent before. -/
def after (session : Session) (replies : List Reply) : Session :=
  { session with replies := replies ++ session.replies }

/-- How a session ends that the client asks to end: the next message must allow it. -/
def endingAfterShutdown : List Message → Ending
  | .notification "exit" _ :: _ => .finished
  | _ => .failed

/-- The session from a state on. It ends early when the client asks for it or a notification cannot
    be understood. -/
def ofMessages (state : State) : List Message → Session
  | [] => { replies := [], ending := .finished }
  | .request id "shutdown" _ :: rest =>
    { replies := [.result id .nothing], ending := endingAfterShutdown rest }
  | message :: rest =>
    match state.handle? message with
    | none => { replies := [], ending := .failed }
    | some (state, replies) => (ofMessages state rest).after replies

/-- The settings that a client gives at the beginning; the defaults if it gives none that are valid.
    There are none if the client does not describe itself as it must. -/
def settings? (params : Json) : Option Settings :=
  if Client.description params then
    let options := params.field? "initializationOptions"
    some ((options.bind Settings.ofJson?).getD {})
  else none

/-- The session of a client, from its first parameters and its messages. -/
def run (files : FileTree) (params : Json) (messages : List Message)
    (arrangement : Arrangement := {}) : Session :=
  match settings? params with
  | none => { replies := [], ending := .failed }
  | some settings =>
    let (state, replies) := (State.start files settings arrangement).diagnostics
    (ofMessages state messages).after replies

end Session

end TemplateAnalysis.Server
