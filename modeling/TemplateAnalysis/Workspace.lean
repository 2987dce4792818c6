import TemplateAnalysis.Corpus
import TemplateAnalysis.LinkHint
import TemplateAnalysis.Settings

namespace TemplateAnalysis

open Host (DocumentId)

/-- The whole state of a workspace: its documents, the hints for links, and the settings. -/
structure Workspace where
  corpus : Corpus
  hints : LinkHints
  settings : Settings
  deriving Inhabited

namespace Workspace

/-- The workspace without any document. -/
def ofSettings (settings : Settings) (arrangement : Arrangement := {}) : Workspace :=
  { corpus := { family := settings.language, arrangement }, hints := {}, settings }

/-- Writes a document and answers with its identifiers. -/
def add (workspace : Workspace) (id : DocumentId) (filename text extension : String) :
    List Identifier × Workspace :=
  let (identifiers, corpus) := workspace.corpus.add id filename text extension
  (identifiers, { workspace with corpus })

/-- Removes the document with a name. -/
def erase (workspace : Workspace) (filename : String) : Workspace :=
  { workspace with corpus := workspace.corpus.erase filename }

/-- What is asked about a document and its analysis, if there is such a document. The workspace
    afterwards keeps the analysis. -/
def ask {α : Type} (workspace : Workspace) (document? : Option Document)
    (answer? : Document → Analysis → Option α) : Option α × Workspace :=
  match document? with
  | none => (none, workspace)
  | some document =>
    let (analysis, corpus) := workspace.corpus.analyse document
    (answer? document analysis, { workspace with corpus })

/-- The identifiers on one line of the document that a key names. -/
def identifiersOnLine? (workspace : Workspace) (key : String) (line : Nat) :
    Option (List Identifier) × Workspace :=
  let (found, corpus) := workspace.corpus.identifiersOnLine? key line
  (found, { workspace with corpus })

/-- The identifiers of a document that make its summary: all but links. -/
def symbols? (workspace : Workspace) (id : DocumentId) (filename : String) :
    Option (List Identifier) × Workspace :=
  workspace.ask (workspace.corpus.find? id filename) fun _ analysis =>
    some (analysis.identifiers.filter (·.kind != .link))

/-- The references of a document that have no declaration. -/
def undefined? (workspace : Workspace) (filename : String) :
    Option (List Identifier) × Workspace :=
  workspace.ask (workspace.corpus.documentNamed? filename) fun _ analysis =>
    some (analysis.identifiers.filter (·.kind == .undefinedVariable))

/-- The names of the templates of the workspace, in order. -/
def templateFiles (workspace : Workspace) : List String :=
  let templates := workspace.corpus.listed.filter (·.isTemplate)
  (templates.map (·.filename)).mergeSort fun first second => decide (first ≤ second)

end Workspace

end TemplateAnalysis
