import TemplateAnalysis.Cursor.Completion
import TemplateAnalysis.Cursor.Declaration
import TemplateAnalysis.Cursor.Hover

namespace TemplateAnalysis.Workspace

open Host (DocumentId)
open Cursor (Completion Hover Location)

/-- The hover at a position of a document. -/
def hover? (workspace : Workspace) (id : DocumentId) (filename : String) (position : Position) :
    Option Hover × Workspace :=
  workspace.ask (workspace.corpus.find? id filename) (Hover.at? workspace · · position)

/-- The completions at a position of a document. They need no analysis. -/
def complete? (workspace : Workspace) (id : DocumentId) (filename : String)
    (position : Position) : Option (List Completion) :=
  (workspace.corpus.find? id filename).bind (Completion.at? workspace · position)

/-- The declarations of what stands at a position of a document. -/
def declarations? (workspace : Workspace) (id : DocumentId) (filename : String)
    (position : Position) : Option (List Location) × Workspace :=
  workspace.ask (workspace.corpus.find? id filename) (Location.at? workspace · · position)

/-- The path of the template that is named at a position of a document but missing. -/
def missingTemplate? (workspace : Workspace) (id : DocumentId) (filename : String)
    (position : Position) : Option String × Workspace :=
  workspace.ask (workspace.corpus.find? id filename) (Cursor.missingTemplate? workspace · · position)

end TemplateAnalysis.Workspace
