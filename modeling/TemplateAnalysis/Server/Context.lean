import TemplateAnalysis.Server.Shape

namespace TemplateAnalysis.Server.Context

open Member Shape

/-- The mark under which a client follows the progress of a request. -/
def progress : Member := optional "workDoneToken" tag

/-- The mark under which a client follows the parts of an answer. -/
def partialResult : Member := optional "partialResultToken" tag

/-- The circumstances of a request whose answer comes at once. -/
def single : Shape := named [progress]

/-- The circumstances of a request whose answer may come in several parts. -/
def several : Shape := named [progress, partialResult]

/-- The circumstances in which completions are asked for. -/
def completion : Shape :=
  named [optional "context"
    (record [required "triggerKind" integer, optional "triggerCharacter" text])]

/-- A place to which a diagnostic points. -/
def relatedPlace : Shape :=
  record [required "location" (record [required "uri" address, required "range" range]),
    required "message" text]

/-- A diagnostic that a client has got before. -/
def diagnostic : Shape :=
  record [required "range" range, optional "severity" integer, optional "code" tag,
    optional "codeDescription" (record [required "href" address]), optional "source" text,
    required "message" text, optional "relatedInformation" (list relatedPlace),
    optional "tags" (list integer), optional "data" anything]

/-- The circumstances in which actions are asked for. -/
def action : Shape :=
  named [required "context"
    (record [required "diagnostics" (list diagnostic), optional "only" (list text),
      optional "triggerKind" integer])]

end TemplateAnalysis.Server.Context
