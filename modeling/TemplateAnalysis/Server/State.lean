import TemplateAnalysis.Cursor
import TemplateAnalysis.Discovery
import TemplateAnalysis.Server.Address
import TemplateAnalysis.Server.Notice
import TemplateAnalysis.Server.Reply

namespace TemplateAnalysis.Server

open Host (DocumentId)

/-- What a server knows: the files that it can see, the workspace, and the addresses of the
    documents. A document is named by its address, and its number is the place of the address in the
    list. Addresses stay when documents go, so no number is used twice. -/
structure State where
  files : FileTree
  workspace : Workspace
  uris : List String := []
  deriving Inhabited

namespace State

/-- The number of a document that has been in the workspace. -/
def documentId? (state : State) (uri : String) : Option DocumentId :=
  state.uris.findIdx? (· == uri)

/-- The state in which an address has a number. -/
def register (state : State) (uri : String) : DocumentId × State :=
  match state.documentId? uri with
  | some id => (id, state)
  | none => (state.uris.length, { state with uris := state.uris ++ [uri] })

/-- Writes a document into the workspace, if it is of a known kind. -/
def load? (state : State) (uri text : String) : Option State :=
  (state.workspace.settings.languageOf? uri).map fun _ =>
    let (id, state) := state.register uri
    { state with
      workspace := (state.workspace.add id uri text ((Path.extension? uri).getD "")).2 }

/-- Writes a file into the workspace. Files without a valid address are left out. -/
def preloadFile (state : State) (file : Discovery.Found) : State :=
  let loaded := (state.files.file? file.route).bind fun text =>
    (uriOf? state.files file.path).bind fun uri => state.load? uri text
  loaded.getD state

/-- The state at the beginning, when only files of the workspace have been read. -/
def start (files : FileTree) (settings : Settings) (arrangement : Arrangement := {}) : State :=
  (Discovery.workspaceFiles settings files).foldl preloadFile
    { files, workspace := .ofSettings settings arrangement }

/-- The undefined variables of some templates. Templates without a valid address are left out. -/
def diagnosticsOf (state : State) : List String → State × List Reply
  | [] => (state, [])
  | filename :: rest =>
    match uriOf? state.files filename with
    | none => state.diagnosticsOf rest
    | some uri =>
      let (undefined?, workspace) := state.workspace.undefined? filename
      let (state, later) := { state with workspace }.diagnosticsOf rest
      (state, .diagnostics uri (undefined?.getD []) :: later)

/-- The undefined variables of all templates, because a change of a program can concern each of
    them. Nothing is sent if the settings hide them. -/
def diagnostics (state : State) : State × List Reply :=
  if state.workspace.settings.hideUndefined then (state, [])
  else state.diagnosticsOf state.workspace.templateFiles

/-- The state after a notice, with what is sent because of it. -/
def receive (state : State) : Notice → State × List Reply
  | .written uri text =>
    match state.load? uri text with
    | some loaded => loaded.diagnostics
    | none => (state, [])
  | .removed [] => (state, [])
  | .removed uris =>
    { state with workspace := uris.foldl Workspace.erase state.workspace }.diagnostics
  | .ignored => (state, [])

/-- What the workspace answers for a document, or nothing if the document has never been there. The
    state afterwards keeps what the workspace has found out. -/
def query {α : Type} (state : State) (uri : String)
    (ask : DocumentId → Option α × Workspace) (answer : α → Answer) : Answer × State :=
  match state.documentId? uri with
  | none => (.nothing, state)
  | some id =>
    let (found?, workspace) := ask id
    ((found?.map answer).getD .nothing, { state with workspace })

/-- The places that have a valid address. -/
def places (state : State) (locations : List Cursor.Location) : List (String × Range) :=
  locations.filterMap fun location =>
    (uriOf? state.files location.uri).map fun uri => (uri, location.range)

/-- The answer to a request. -/
def answer (state : State) : Request → Answer × State
  | .hover uri position =>
    state.query uri (state.workspace.hover? · uri position) .hover
  | .completion uri position =>
    state.query uri (fun id => (state.workspace.complete? id uri position, state.workspace))
      .completions
  | .declarations uri position =>
    state.query uri (state.workspace.declarations? · uri position) fun locations =>
      .places (state.places locations)
  | .symbols uri =>
    state.query uri (state.workspace.symbols? · uri) .symbols
  | .actions uri range =>
    state.query uri (fun id =>
      let (path?, workspace) := state.workspace.missingTemplate? id uri range.start
      (path?.bind (uriOf? state.files), workspace)) .creation

/-- The state after a request, with the reply to it. -/
def reply (state : State) (id : MessageId) (method : String) (params : Json) : State × Reply :=
  match Request.ofParams method params with
  | .ok request =>
    let (answer, state) := state.answer request
    (state, .result id answer)
  | .error error => (state, .refusal id error)

/-- The state after a message, with what is sent because of it. There is none if a notification
    cannot be understood. -/
def handle? (state : State) : Message → Option (State × List Reply)
  | .request id method params =>
    let (state, reply) := state.reply id method params
    some (state, [reply])
  | .notification method params => (Notice.ofParams? method params).map state.receive
  | .response => some (state, [])

end State

end TemplateAnalysis.Server
