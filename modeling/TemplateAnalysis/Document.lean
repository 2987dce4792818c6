import TemplateAnalysis.Analysis
import TemplateAnalysis.Host.Scan
import TemplateAnalysis.Text.Blank

namespace TemplateAnalysis

open Host (DocumentId)

/-- The number that a text denotes as the number of a document. Blanks around it do not count, and a
    plus sign may stand before it. -/
def Host.DocumentId.ofText? (text : String) : Option DocumentId :=
  let digits :=
    match Text.trim text.toList with
    | '+' :: digits => digits
    | digits => digits
  if digits.isEmpty || !digits.all Char.isDigit then none
  else
    let value := digits.foldl (fun value digit => 10 * value + (digit.toNat - '0'.toNat)) 0
    if value < 4294967296 then some value else none

/-- What has been read out of a document. -/
inductive Content
  | template (outline : Template.Outline)
  | program (language : HostLanguage) (identifiers : List Identifier)
  deriving DecidableEq, Inhabited

/-- A document as it was when it was written last, with the revision of that write. It keeps the
    analysis that was made of it last, with the generation of the program variables that this
    analysis has seen. -/
structure Document where
  id : DocumentId
  source : Source
  extension : String
  revision : Nat
  content : Content
  cache : Option (Nat × Analysis) := none
  deriving DecidableEq, Inhabited

/-- Reads a document. -/
def Content.ofSource (language : Language) (source : Source) : Content :=
  match language with
  | .template => .template (.ofSource source)
  | .host language => .program language (Host.scan language source)

namespace Document

/-- The name of the document. -/
def filename (document : Document) : String :=
  document.source.name

/-- The language of the document. -/
def language (document : Document) : Language :=
  match document.content with
  | .template _ => .template
  | .program language _ => .host language

/-- The outline of a template. -/
def outline? (document : Document) : Option Template.Outline :=
  match document.content with
  | .template outline => some outline
  | .program _ _ => none

/-- Whether the document is a template. -/
def isTemplate (document : Document) : Bool :=
  document.outline?.isSome

/-- The filters that a template uses. -/
def filters (document : Document) : List Template.Name :=
  (document.outline?.map (·.filters)).getD []

end Document

end TemplateAnalysis
