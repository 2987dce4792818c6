import TemplateAnalysis.Workspace

namespace TemplateAnalysis.Cursor

/-- What a cursor can stand on. -/
inductive Target
  | reference (resolved : ResolvedReference)
  | filter (name : Template.Name)
  | identifier (record : Identifier)
  deriving DecidableEq, Inhabited

namespace Target

/-- The range of a target. -/
def range : Target → Range
  | reference resolved => resolved.reference.range
  | filter name => name.range
  | identifier record => record.range

/-- Everything in a document on which a cursor can stand. The undefined variables of a template are
    there already as references. -/
def all (document : Document) (analysis : Analysis) : List Target :=
  analysis.references.map reference ++ document.filters.map filter ++
    (analysis.identifiers.filter fun identifier =>
      !(document.isTemplate && identifier.kind == .undefinedVariable)).map identifier

/-- The target at a position: the first one that contains it, or else the first one that ends
    there. -/
def at? (document : Document) (analysis : Analysis) (position : Position) : Option Target :=
  let targets := all document analysis
  (targets.find? (·.range.contains position)).or (targets.find? (·.range.touches position))

end Target

/-- The shorter one of two documents by the length of their names, the first one of equals. -/
def shortestName (best : Option Document) : List Document → Option Document
  | [] => best
  | document :: rest =>
    let size := fun (document : Document) => Text.byteLength document.filename.toList
    match best with
    | some other => shortestName (if size document < size other then some document else best) rest
    | none => shortestName (some document) rest

/-- Whether a file name is the name of a template or ends in it after a slash. -/
def matchesTemplate (name filename : String) : Bool :=
  let suffix := '/' :: name.toList.dropWhile (· == '/')
  filename == name || suffix.isSuffixOf filename.toList

/-- The open template that a name refers to. The shortest of several file names is the closest to
    the name. Of names that are equally long the one counts that comes first at present. -/
def findTemplate? (corpus : Corpus) (name : String) : Option Document :=
  shortestName none <| corpus.listed.filter fun document =>
    document.isTemplate && matchesTemplate name document.filename

end TemplateAnalysis.Cursor
